import Conductor.Proofs.Alternation

/-!
# Calls that fit

A call with positional arguments fits a signature just if there is a place for each of them and every
parameter that gets none has a default. Arguments bound in advance take the first places. So the places of
a signature tell whether a node is to be handed its completion, and they never tell that wrongly: a node is
called in a way that does not fit only if it cannot be called at all.
-/

namespace Conductor

def ParameterKind.rank : ParameterKind → Nat
  | positionalOnly => 0
  | standard => 1
  | varPositional => 2
  | keywordOnly => 3
  | varKeyword => 4

/-- Whether a parameter may stand before another one: under another name, in the order of the kinds, of
which two hold one parameter only, and with no default if the other one has none. -/
def Parameter.Precedes (p q : Parameter) : Prop :=
  p.name ≠ q.name ∧ p.kind.rank ≤ q.kind.rank ∧
    (p.kind = q.kind → p.kind ≠ .varPositional ∧ p.kind ≠ .varKeyword) ∧
    (q.isPositional = true → p.hasDefault = true → q.hasDefault = true)

instance : DecidableRel Parameter.Precedes := fun p q =>
  inferInstanceAs (Decidable (p.name ≠ q.name ∧ _))

namespace Signature

/-- Whether parameters stand in an order in which a function can be written. -/
def IsLegal (s : Signature) : Prop := s.Pairwise Parameter.Precedes

instance (s : Signature) : Decidable s.IsLegal := inferInstanceAs (Decidable (s.Pairwise _))

/-- Whether a call with so many positional arguments fits. -/
structure Binds (s : Signature) (count : Nat) : Prop where
  room : s.hasVarPositional = true ∨ count ≤ s.positionalCount
  positional : ∀ p ∈ s.positionals.drop count, p.hasDefault = true
  keywordOnly : ∀ p ∈ s, p.kind = .keywordOnly → p.hasDefault = true

variable {s s' : Signature} {p : Parameter} {count more : Nat} {names : List String}

theorem missing_isEmpty {open_ : List Parameter} :
    (missing open_ []).isEmpty = true ↔ ∀ p ∈ open_, p.hasDefault = true := by
  simp [missing, List.filter_eq_nil_iff]

/-- Nothing stands against a call with positional arguments alone just if it fits. -/
theorem arityFault?_eq_none_iff : s.arityFault? count [] = none ↔ s.Binds count := by
  have filtered : (∀ p ∈ s.filter (·.kind = .keywordOnly), p.hasDefault = true) ↔
      ∀ p ∈ s, p.kind = .keywordOnly → p.hasDefault = true := by simp
  show (if !s.hasVarPositional && decide (s.positionals.length < count) then some (ArityFault.tooMany _ _ _ _)
    else if !(missing (s.positionals.drop count) []).isEmpty then some (ArityFault.missing true _)
    else if (missing (s.filter (·.kind = .keywordOnly)) []).isEmpty then none
    else some (ArityFault.missing false _)) = none ↔ s.Binds count
  split
  · rename_i crowded
    simp only [Bool.and_eq_true, Bool.not_eq_true', decide_eq_true_eq] at crowded
    refine iff_of_false (by simp) fun fits => ?_
    rcases fits.room with variadic | room
    · rw [variadic] at crowded
      cases crowded.1
    · exact absurd crowded.2 (Nat.not_lt.mpr room)
  · rename_i spacious
    have room : s.hasVarPositional = true ∨ count ≤ s.positionalCount := by
      by_contra no
      rw [not_or, Bool.not_eq_true, Nat.not_le] at no
      have crowded : s.positionals.length < count := no.2
      exact spacious (by simp [no.1, crowded])
    split
    · rename_i first
      refine iff_of_false (by simp) fun fits => ?_
      rw [missing_isEmpty.mpr fits.positional] at first
      cases first
    · rename_i first
      have filled : (missing (s.positionals.drop count) []).isEmpty = true := by simpa using first
      split
      · rename_i second
        exact iff_of_true rfl ⟨room, missing_isEmpty.mp filled, filtered.mp (missing_isEmpty.mp second)⟩
      · rename_i second
        exact iff_of_false (by simp) fun fits => second (missing_isEmpty.mpr (filtered.mpr fits.keywordOnly))

/-- A parameter for the object in front takes the first of the arguments. -/
theorem binds_cons (own : p.isPositional = true) : Binds (p :: s) (1 + count) ↔ s.Binds count := by
  have kinds : p.kind ≠ .varPositional ∧ p.kind ≠ .keywordOnly := by
    constructor <;> intro kind <;> simp [Parameter.isPositional, kind] at own
  have places : positionals (p :: s) = p :: s.positionals := by simp [positionals, own]
  have variadic : hasVarPositional (p :: s) = s.hasVarPositional := by simp [hasVarPositional, kinds.1]
  have number : positionalCount (p :: s) = 1 + s.positionalCount := by
    simp [positionalCount, own, Nat.add_comm]
  have rest : (positionals (p :: s)).drop (1 + count) = s.positionals.drop count := by
    rw [places, Nat.add_comm, List.drop_succ_cons]
  constructor
  · intro fits
    exact ⟨by simpa [variadic, number] using fits.room, rest ▸ fits.positional,
      fun q member => fits.keywordOnly q (List.mem_cons_of_mem _ member)⟩
  · intro fits
    refine ⟨by simpa [variadic, number] using fits.room, rest ▸ fits.positional, fun q member kind => ?_⟩
    rcases List.mem_cons.mp member with rfl | member
    · exact absurd kind kinds.2
    · exact fits.keywordOnly q member kind

/-- A third argument fits a signature that has a place for it, if two do. -/
theorem Binds.third (fits : s.Binds 2) (place : s.hasThirdPlace = true) : s.Binds 3 where
  room := by simpa [hasThirdPlace] using place
  positional p member := fits.positional p (List.mem_of_mem_drop (i := 1) (by simpa using member))
  keywordOnly := fits.keywordOnly

theorem Binds.hasThirdPlace (fits : s.Binds 3) : s.hasThirdPlace = true := by
  simpa [Signature.hasThirdPlace] using fits.room

/-! ### Arguments bound in advance -/

theorem IsLegal.tail (legal : IsLegal (p :: s)) : s.IsLegal := (List.pairwise_cons.mp legal).2

theorem IsLegal.apart (legal : IsLegal (p :: s)) : ∀ q ∈ s, q.name ≠ p.name := fun q member =>
  ((List.pairwise_cons.mp legal).1 q member).1.symm

/-- Behind a parameter that takes no single argument by its place there is none that does. -/
theorem IsLegal.unplaced (legal : IsLegal (p :: s)) (other : p.isPositional = false) :
    positionals (p :: s) = [] := by
  refine List.filter_eq_nil_iff.mpr fun q member own => ?_
  rcases List.mem_cons.mp member with rfl | member
  · exact absurd own (by simp [other])
  · obtain ⟨-, order, -⟩ := (List.pairwise_cons.mp legal).1 q member
    cases kind : p.kind <;> cases kind' : q.kind <;>
      simp_all [Parameter.isPositional, ParameterKind.rank]

/-- Behind the parameters that are given by name there are none that are given by place. -/
theorem IsLegal.unroomed (legal : IsLegal (p :: s)) (named : p.kind = .keywordOnly ∨ p.kind = .varKeyword) :
    hasVarPositional (p :: s) = false ∧ positionals (p :: s) = [] := by
  refine ⟨?_, legal.unplaced (by rcases named with kind | kind <;> simp [Parameter.isPositional, kind])⟩
  refine List.any_eq_false.mpr fun q member => ?_
  rcases List.mem_cons.mp member with rfl | member
  · rcases named with kind | kind <;> simp [kind]
  · obtain ⟨-, order, -⟩ := (List.pairwise_cons.mp legal).1 q member
    rcases named with kind | kind <;> intro kind' <;>
      simp_all [ParameterKind.rank]

theorem openParameters_nil : openParameters [] [] false s = s := by
  induction s with
  | nil => rfl
  | cons p rest ih =>
    obtain ⟨name, kind, hasDefault⟩ := p
    cases kind <;> simp [openParameters, ih]

theorem openParameters_fresh {name : String} (fresh : ∀ q ∈ s, q.name ≠ name) :
    openParameters (name :: names) [] false s = openParameters names [] false s := by
  induction s with
  | nil => rfl
  | cons p rest ih =>
    have own := fresh p List.mem_cons_self
    have later := ih fun q member => fresh q (List.mem_cons_of_mem _ member)
    cases kind : p.kind <;> simp [openParameters, kind, own, later]

theorem bindAhead_positional : s.bindAhead count [] =
    (placePositional [] count s).map fun placed => openParameters placed.1 [] false s := by
  unfold bindAhead boundNames
  cases placePositional [] count s <;> simp

/-- Binding positional arguments in advance leaves the signature of the calls that take the others. If they
cannot be bound, no call that starts with them fits. -/
theorem IsLegal.bindAhead (legal : s.IsLegal) (count : Nat) :
    (∀ s', s.bindAhead count [] = some s' → s'.IsLegal ∧ ∀ more, s'.Binds more ↔ s.Binds (count + more)) ∧
    (s.bindAhead count [] = none → ∀ more, ¬ s.Binds (count + more)) := by
  simp only [bindAhead_positional]
  induction s generalizing count with
  | nil =>
    cases count with
    | zero => simp [placePositional, openParameters_nil, legal]
    | succ n =>
      refine ⟨by simp [placePositional], fun _ more fits => ?_⟩
      simpa [hasVarPositional, positionalCount] using fits.room
  | cons p rest ih =>
    cases count with
    | zero => simp [placePositional, openParameters_nil, legal]
    | succ n =>
      have unroomed (named : p.kind = .keywordOnly ∨ p.kind = .varKeyword) (more : Nat) :
          ¬ Binds (p :: rest) (n + 1 + more) := by
        intro fits
        obtain ⟨variadic, none⟩ := legal.unroomed named
        have number : positionalCount (p :: rest) = 0 := congrArg List.length none
        have room := fits.room
        rw [variadic, number] at room
        rcases room with absurd | room
        · cases absurd
        · omega
      have placed (own : p.isPositional = true) :
          (∀ s', ((placePositional [] n rest).map fun x => openParameters (p.name :: x.1) [] false rest) = some s' →
            s'.IsLegal ∧ ∀ more, s'.Binds more ↔ Binds (p :: rest) (n + 1 + more)) ∧
          (((placePositional [] n rest).map fun x => openParameters (p.name :: x.1) [] false rest) = none →
            ∀ more, ¬ Binds (p :: rest) (n + 1 + more)) := by
        obtain ⟨found, missed⟩ := ih legal.tail n
        simp only [openParameters_fresh legal.apart]
        have shift (more : Nat) : n + 1 + more = 1 + (n + more) := by omega
        refine ⟨fun s' some => ⟨(found s' some).1, fun more => ?_⟩, fun none more => ?_⟩
        · rw [(found s' some).2, shift, binds_cons own]
        · rw [shift, binds_cons own]
          exact missed none more
      cases kind : p.kind with
      | positionalOnly =>
        have own := placed (by simp [Parameter.isPositional, kind])
        simpa [placePositional, kind, openParameters, Option.map_map, Function.comp_def] using own
      | standard =>
        have own := placed (by simp [Parameter.isPositional, kind])
        simpa [placePositional, kind, openParameters, Option.map_map, Function.comp_def] using own
      | varPositional =>
        have same : openParameters [p.name] [] false (p :: rest) = p :: rest := by
          simp only [openParameters, kind, Bool.false_eq_true, if_false]
          rw [openParameters_fresh legal.apart, openParameters_nil]
        have variadic : hasVarPositional (p :: rest) = true := by simp [hasVarPositional, kind]
        have none := legal.unplaced (by simp [Parameter.isPositional, kind])
        refine ⟨fun s' some => ?_, by simp [placePositional, kind]⟩
        obtain rfl : p :: rest = s' := by simpa [placePositional, kind, same] using some
        refine ⟨legal, fun more => ⟨fun fits => ?_, fun fits => ?_⟩⟩ <;>
          exact ⟨.inl variadic, by simp [none], fits.keywordOnly⟩
      | keywordOnly =>
        exact ⟨by simp [placePositional, kind], fun _ => unroomed (.inl kind)⟩
      | varKeyword =>
        exact ⟨by simp [placePositional, kind], fun _ => unroomed (.inr kind)⟩

end Signature

/-! ### Actions -/

namespace Action

def Takes (a : Action) (arguments : List Value) : Prop := ∃ p, a.prepare arguments [] = .ok p

/-- Whether an action is a function that can be written and whose signature can be read, with positional
arguments bound in advance or none, and perhaps within wrappers that hand their arguments on. A method has its
object bound. -/
inductive IsSigned : Action → Prop
  | function {f : Function} {attributes : Attributes} (legal : f.signature.IsLegal)
      (signed : f.packaging ≠ .unsigned) : IsSigned (.function f attributes)
  | bound {of : Action} {positional : List Value} {attributes : Attributes} (signed : IsSigned of) :
      IsSigned (.bound of positional [] attributes)
  | wrapper {of : Action} {attributes : Attributes} (signed : IsSigned of) : IsSigned (.wrapper of attributes)

variable {a : Action} {arguments : List Value} {s : Signature}

theorem takes_function {f : Function} {attributes : Attributes} :
    (function f attributes).Takes arguments ↔ f.signature.Binds arguments.length := by
  have own : f.parameters.arityFault? (f.ownParameter?.toList.length + arguments.length) [] = none ↔
      f.signature.Binds arguments.length := by
    rw [Signature.arityFault?_eq_none_iff, Function.parameters]
    cases object : f.ownParameter? with
    | none => simp
    | some p =>
      have positional : p.isPositional = true := by
        unfold Function.ownParameter? at object
        split at object
        · cases object
        · cases object
        all_goals
          obtain rfl := Option.some.inj object
          by_cases unnamed : f.signature.any (fun p => p.kind = .positionalOnly) <;>
            simp [Parameter.isPositional, unnamed]
      exact Signature.binds_cons positional
  rw [← own, Takes, prepare, Function.prepare]
  simp only [List.map_nil]
  split
  · rename_i fault found
    simp [found]
  · rename_i found
    simp [found]

/-- A call fits an action just if it fits its signature, and none does if it has no signature. -/
theorem IsSigned.takes (signed : a.IsSigned) :
    (∀ s, a.signature? = some s → s.IsLegal ∧ ∀ arguments, a.Takes arguments ↔ s.Binds arguments.length) ∧
    (a.signature? = none → ∀ arguments, ¬ a.Takes arguments) := by
  induction signed with
  | @function f attributes legal signed =>
    have known : (Action.function f attributes).signature? = some f.signature := if_neg signed
    refine ⟨fun s found => ?_, fun missing => ?_⟩
    · obtain rfl := Option.some.inj (known.symm.trans found)
      exact ⟨legal, fun arguments => takes_function⟩
    · cases known.symm.trans missing
  | @bound of positional attributes signed ih =>
    have forward (arguments : List Value) : (Action.bound of positional [] attributes).Takes arguments ↔
        of.Takes (positional ++ arguments) := Iff.rfl
    simp only [forward, signature?]
    cases inner : of.signature? with
    | none => exact ⟨fun s found => (nomatch found), fun _ arguments => ih.2 inner _⟩
    | some s =>
      obtain ⟨legal, fits⟩ := ih.1 s inner
      obtain ⟨found, missed⟩ := legal.bindAhead positional.length
      refine ⟨fun s' bound => ?_, fun unbound arguments => ?_⟩
      · obtain ⟨legal', left⟩ := found s' bound
        exact ⟨legal', fun arguments => by rw [fits, List.length_append, left]⟩
      · rw [fits, List.length_append]
        exact missed unbound _
  | wrapper signed ih => exact ih

/-- An action is handed a completion just if it can be called with one, unless it can be called in neither
way. -/
theorem IsSigned.acceptsCompletion (signed : a.IsSigned) {x y z : Value} :
    (a.Takes [x, y, z] → a.acceptsCompletion = true) ∧
    (¬ a.Takes [x, y, z] → a.Takes [x, y] → a.acceptsCompletion = false) := by
  obtain ⟨known, unknown⟩ := signed.takes
  unfold Action.acceptsCompletion
  cases found : a.signature? with
  | none => exact ⟨fun _ => rfl, fun _ two => absurd two (unknown found _)⟩
  | some s =>
    obtain ⟨-, fits⟩ := known s found
    refine ⟨fun three => ((fits _).mp three).hasThirdPlace, fun other two => ?_⟩
    by_contra place
    exact other ((fits _).mpr (((fits _).mp two).third (by simpa using place)))

end Action

namespace World

variable {plan : Plan} {w : World} {run : RunId} {n : Node} {policy : Policy}

/-- A run that invokes a node calls its action with the args, the store and a completion if such a call fits, and
otherwise with the args and the store if that does. So the call it makes does not fit only if neither does. -/
theorem completion_is_handed_where_it_fits (signed : (plan.tree.actionFor n).IsSigned)
    (invokes : w.Invokes run n policy) :
    let action := plan.tree.actionFor n
    let two : List Value := [.dict ((userCode plan w).1.argsOf run), .store]
    let three := two ++ [.completion policy w.completions.size]
    (action.Takes three → action.acceptsCompletion = true) ∧
    (¬ action.Takes three → action.Takes two → action.acceptsCompletion = false) ∧
    ∃ given, (userCode plan w).2 = ((userCode plan w).1.invoke action given).2 ∧
      (action.Takes three → given = three) ∧ (¬ action.Takes three → action.Takes two → given = two) ∧
      ∀ f, action.prepare given [] = .error f → ¬ action.Takes three ∧ ¬ action.Takes two := by
  intro action two three
  obtain ⟨handed, unhanded⟩ : (action.Takes three → action.acceptsCompletion = true) ∧
      (¬ action.Takes three → action.Takes two → action.acceptsCompletion = false) :=
    signed.acceptsCompletion
  have first : (w.newCompletion (descriptor plan n policy)).1 = w.completions.size := by
    cases policy <;> rfl
  have made : (userCode plan w).2 = ((userCode plan w).1.invoke action
      (two ++ if action.acceptsCompletion then [.completion policy w.completions.size] else [])).2 := by
    rw [← first]
    simp only [two, invokes.userCode]
    rfl
  have withThree (fits : action.Takes three) :
      (two ++ if action.acceptsCompletion then [.completion policy w.completions.size] else []) = three := by
    rw [if_pos (handed fits)]
  have withTwo (other : ¬ action.Takes three) (fits : action.Takes two) :
      (two ++ if action.acceptsCompletion then [.completion policy w.completions.size] else []) = two := by
    rw [if_neg (by simp [unhanded other fits]), List.append_nil]
  refine ⟨handed, unhanded, _, made, withThree, withTwo, fun f unfit => ?_⟩
  have other : ¬ action.Takes three := fun fits => by
    obtain ⟨p, prepared⟩ := fits
    rw [withThree ⟨p, prepared⟩, prepared] at unfit
    cases unfit
  refine ⟨other, fun fits => ?_⟩
  obtain ⟨p, prepared⟩ := fits
  rw [withTwo other ⟨p, prepared⟩, prepared] at unfit
  cases unfit

/-- A method with an argument bound in advance and a default for its last parameter. -/
def bindingItems : List Item := [
  .leaf (.object 0 0) (.bound (.function {
    label := "a"
    packaging := .method
    signature := [⟨"own", .positionalOnly, false⟩, ⟨"args", .standard, false⟩, ⟨"store", .standard, false⟩,
      ⟨"completion", .standard, true⟩, ⟨"mode", .keywordOnly, true⟩]
    steps := [] } {}) [.int 1] [] {})]

def binding : Plan where
  tree := Graph.compileItems bindingItems

/-- With what is bound in advance the method takes a completion as its last argument, and is handed one. -/
theorem bound_method_is_handed_completion : ∃ (w : World) (n : Node), Reachable binding w ∧
    w.Invokes 0 n .sequential ∧ (binding.tree.actionFor n).IsSigned ∧
    (binding.tree.actionFor n).acceptsCompletion = true ∧
    (userCode binding w).2 = ((userCode binding w).1.invoke (binding.tree.actionFor n)
      [.dict ((userCode binding w).1.argsOf 0), .store, .completion .sequential w.completions.size]).2 := by
  let w := firstRun binding 8
  let n : Node := ⟨⟨0, 0, .text "a", [.entry 0], false⟩, none⟩
  have invokes : w.Invokes 0 n .sequential := .sequentially rfl
  have signed : (binding.tree.actionFor n).IsSigned := .bound (.function (by decide) (by decide))
  obtain ⟨handed, -, given, made, fitted, -, -⟩ := completion_is_handed_where_it_fits signed invokes
  have fits : (binding.tree.actionFor n).Takes
      [.dict ((userCode binding w).1.argsOf 0), .store, .completion .sequential w.completions.size] := ⟨_, rfl⟩
  rw [fitted fits] at made
  exact ⟨w, n, reachable_firstRun binding 8, invokes, signed, handed fits, made⟩

end World

end Conductor
