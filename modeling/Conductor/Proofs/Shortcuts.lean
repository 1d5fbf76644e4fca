import Conductor.Proofs.Escapes
import Conductor.Proofs.Jsonable
import Conductor.Proofs.Usage

/-!
# Reading what is not declared

An action that reads an attribute of its descriptor under a name that is neither a declared output nor an
attribute or a method fails, and the descriptor stays as it is. The failure tells which outputs are declared,
which only texts can be: an output under any other key makes it a failure of another kind, unless the name is
an inner one. Whatever failure it is, the run that it reaches is rejected with it.
-/

namespace Conductor

namespace Descriptor

variable {d : Descriptor} {name : String} {k : Key} {ks before after : List Key} {h : Heap}

/-- Whether a name is neither that of a declared output nor that of an attribute or a method. -/
structure Undeclared (d : Descriptor) (name : String) : Prop where
  output : ∀ k ∈ d.declared, k.text? ≠ some name
  book : name ∉ bookNames d.policy
  method : ∀ p ∈ Method.ofPolicy d.policy, p.1 ≠ name
  inherited : ∀ p ∈ Inherited.fixed ++ Inherited.members, p.1 ≠ name
  kind : name ≠ "__class__"

theorem Undeclared.absent (undeclared : d.Undeclared name) (pristine : d.written = []) : d.member? name = none := by
  have missing {entries : List (String × Inherited)} (among : entries ⊆ Inherited.fixed ++ Inherited.members) :
      entries.lookup name = none := by
    refine List.lookup_eq_none_iff.mpr fun p member => bne_iff_ne.mpr ?_
    exact (undeclared.inherited p (among member)).symm
  have fixed := missing (List.subset_append_left _ _)
  have inherited := missing (List.subset_append_right _ _)
  have method : Method.named? d.policy name = none := by
    refine List.lookup_eq_none_iff.mpr fun p member => bne_iff_ne.mpr ?_
    exact (undeclared.method p member).symm
  have shortcut : d.isShortcut name = false := by
    simp only [isShortcut, Bool.and_eq_false_iff, List.any_eq_false]
    right
    intro k member
    simpa using undeclared.output k member
  have own : d.own? name = none := by
    simp [own?, pristine, shortcut, undeclared.book]
  simp [member?, undeclared.kind, fixed, own, method, inherited]

/-! ### Listing the declared outputs -/

theorem texts_of_isText (texts' : ∀ k ∈ ks, k.isText) (position : Nat) :
    ∃ names, texts position (Value.ofKeys ks) = .ok names := by
  induction ks generalizing position with
  | nil => exact ⟨[], rfl⟩
  | cons k rest ih =>
    obtain ⟨text, others⟩ := List.forall_mem_cons.mp texts'
    obtain ⟨s, rfl⟩ := Datum.text_of_isText text
    obtain ⟨names, listed⟩ := ih others (position + 1)
    exact ⟨s :: names, by rw [Value.ofKeys, Key.ofText, Value.ofKey, texts, listed]; rfl⟩

theorem texts_of_not_isText (texts' : ∀ k ∈ before, k.isText) (other : k.isText = false) (after : List Key)
    (position : Nat) :
    texts position (Value.ofKeys (before ++ k :: after))
      = .error (.joinNotText (position + before.length) (Value.ofKey k).typeName) := by
  induction before generalizing position with
  | nil =>
    rw [List.nil_append, Value.ofKeys, texts]
    · rfl
    · intro s same
      cases k with
      | atom a =>
        obtain rfl := Value.atom.inj same
        cases other
      | tuple items => cases same
      | frozenset items => cases same
  | cons first rest ih =>
    obtain ⟨text, others⟩ := List.forall_mem_cons.mp texts'
    obtain ⟨s, rfl⟩ := Datum.text_of_isText text
    rw [List.cons_append, Value.ofKeys, Key.ofText, Value.ofKey, texts, ih others, List.length_cons]
    rw [show position + 1 + rest.length = position + (rest.length + 1) by omega]
    rfl

theorem exists_first_not_isText (other : ¬ ∀ k ∈ ks, k.isText) : ∃ before k after, ks = before ++ k :: after ∧
    (∀ x ∈ before, x.isText) ∧ k.isText = false := by
  induction ks with
  | nil => simp at other
  | cons k rest ih =>
    by_cases text : k.isText
    · obtain ⟨before, l, after, rfl, texts, other⟩ := ih fun all => other (List.forall_mem_cons.mpr ⟨text, all⟩)
      exact ⟨k :: before, l, after, rfl, List.forall_mem_cons.mpr ⟨text, texts⟩, other⟩
    · exact ⟨[], k, rest, rfl, by simp, by simpa using text⟩

section Pristine

variable (pristine : d.written = [])

include pristine

theorem outputTexts_pristine : d.outputTexts h = texts 0 (Value.ofKeys d.declared) := by
  rw [outputTexts, book_pristine pristine]

theorem node_pristine : d.node = .ok d.nodeName := by
  rw [node, book_pristine pristine]

/-- Asking for what is missing names the first declared output that is no text, if the name is no inner one. -/
theorem missingAttribute_of_not_isText (outer : name.startsWith "_" = false)
    (declared : d.declared = before ++ k :: after) (texts' : ∀ k ∈ before, k.isText) (other : k.isText = false) :
    d.missingAttribute h name = .joinNotText before.length (Value.ofKey k).typeName := by
  have listed := texts_of_not_isText texts' other after 0
  rw [missingAttribute, outer, node_pristine pristine, outputTexts_pristine pristine, declared, listed, Nat.zero_add]
  rfl

inductive Missing (d : Descriptor) (name : String) : Fault → Prop where
  | hidden (inner : name.startsWith "_") : Missing d name (.hiddenAttribute name)
  | undeclared {names : List String} (texts : ∀ k ∈ d.declared, k.isText) :
      Missing d name (.undeclaredShortcut d.nodeName name names)
  | unlisted {before after : List Key} {k : Key} (outer : name.startsWith "_" = false)
      (declared : d.declared = before ++ k :: after) (texts : ∀ l ∈ before, l.isText) (other : k.isText = false) :
      Missing d name (.joinNotText before.length (Value.ofKey k).typeName)

theorem missing : d.Missing name (d.missingAttribute h name) := by
  by_cases inner : name.startsWith "_"
  · rw [missingAttribute, if_pos inner]
    exact .hidden inner
  · have outer : name.startsWith "_" = false := by simpa using inner
    by_cases texts' : ∀ k ∈ d.declared, k.isText
    · obtain ⟨names, listed⟩ := texts_of_isText texts' 0
      rw [missingAttribute, outer, node_pristine pristine, outputTexts_pristine pristine, listed]
      exact .undeclared texts'
    · obtain ⟨before, k, after, declared, earlier, other⟩ := exists_first_not_isText texts'
      rw [missingAttribute_of_not_isText pristine outer declared earlier other]
      exact .unlisted outer declared earlier other

/-- It is the failure of a missing attribute exactly for an inner name, or if all declared outputs are texts. -/
theorem missingAttribute_iff : (d.missingAttribute h name).className = "AttributeError" ↔
    name.startsWith "_" ∨ ∀ k ∈ d.declared, k.isText := by
  have missing : d.Missing name (d.missingAttribute h name) := missing pristine
  generalize d.missingAttribute h name = f at missing ⊢
  cases missing with
  | hidden inner => exact ⟨fun _ => .inl inner, fun _ => rfl⟩
  | undeclared texts => exact ⟨fun _ => .inr texts, fun _ => rfl⟩
  | @unlisted before after k outer declared _ other =>
    refine ⟨fun same => by simp [Fault.className] at same, ?_⟩
    rintro (inner | texts)
    · cases outer.symm.trans inner
    · have text := texts k (declared ▸ List.mem_append_right _ List.mem_cons_self)
      cases other.symm.trans text

end Pristine

end Descriptor

namespace World

variable {plan : Plan} {w w₁ start : World} {run : RunId} {n : Node} {e : Raised} {policy : Policy} {c : CompletionId}
  {recorded : Recorded} {scope : Scope} {name : String} {earlier later : List Step} {arguments : List Template}

/-! ### Scripts -/

theorem runSteps_append (first : runSteps scope earlier start = (.finished, w)) :
    runSteps scope (earlier ++ later) start = runSteps scope later w := by
  induction earlier generalizing start with
  | nil =>
    obtain rfl := (Prod.mk.inj (show (Halt.finished, start) = (.finished, w) from first)).2
    rfl
  | cons s rest ih =>
    rw [List.cons_append, runSteps]
    rw [runSteps] at first
    generalize runStep scope s start = r at first ⊢
    obtain ⟨h, w₁⟩ := r
    cases h with
    | finished => exact ih first
    | returned r => cases first
    | failed e => cases first
    | paused what more => cases first

theorem runSteps_of_failed {s : Step} (fails : runStep scope s w = (.failed e, w₁)) :
    runSteps scope (s :: later) w = (.failed e, w₁) := by
  rw [runSteps, fails]
  rfl

/-- A reading of a descriptor of a node, sequential or of a group, under a name that is neither declared nor that
of an attribute or a method fails. The failure is that of a missing attribute exactly if the name is an inner one
or if every declared output is a text, and otherwise tells of the first output that is no text. Nothing changes
but that it has been raised, a script that lets it escape ends with it, and a run that it reaches is rejected
with it. -/
theorem undeclared_shortcut_fails (handed : scope.completion = .completion policy c)
    (made : w.completion? c = some ⟨descriptor plan n policy, recorded⟩)
    (undeclared : (descriptor plan n policy).Undeclared name) :
    ∃ f, (f.className = "AttributeError" ↔ name.startsWith "_" ∨ ∀ k ∈ n.outputNames, k.isText) ∧
      (∀ before k after, name.startsWith "_" = false → n.outputNames = before ++ k :: after →
        (∀ l ∈ before, l.isText) → k.isText = false → f = .joinNotText before.length (Value.ofKey k).typeName) ∧
      (∀ start earlier arguments later, runSteps scope earlier start = (.finished, w) →
        runSteps scope (earlier ++ .attribute name arguments :: later) start = (.failed (w.raise f).1, (w.raise f).2)) ∧
      (∀ c, (w.raise f).2.completion? c = w.completion? c) ∧ (∀ g, (w.raise f).2.future? g = w.future? g) ∧
      ∀ run v e, e.fault = f → Runs plan run v → v.isSettled run = false → v.Escapes plan run e →
        ∃ v' ms, v.step plan = some v' ∧ v'.status run = .rejected ms e := by
  have pristine : (descriptor plan n policy).written = [] := rfl
  let f := (descriptor plan n policy).missingAttribute w.heap name
  have fails : w.attributeOf scope.completion name = .error f := by
    rw [handed, attributeOf]
    simp only [made, Descriptor.member, undeclared.absent pristine, Except.map]
    rfl
  refine ⟨f, Descriptor.missingAttribute_iff pristine, ?_, ?_, fun _ => rfl, fun _ => rfl, ?_⟩
  · intro before k after outer declared texts other
    exact Descriptor.missingAttribute_of_not_isText pristine outer declared texts other
  · intro start earlier arguments later first
    have step : runStep scope (.attribute name arguments) w = (.failed (w.raise f).1, (w.raise f).2) := by
      rw [runStep]
      simp only [fails]
      rfl
    rw [runSteps_append first]
    exact runSteps_of_failed step
  · intro run v e same runs running escapes
    have ordinary : e.fault.isOrdinary := by
      rw [same, Fault.isOrdinary, Descriptor.missingAttribute_nature]
    obtain ⟨v', stepped, -, rejects⟩ := escapes.told runs
    obtain ⟨ms, rejected⟩ := rejects ordinary running
    exact ⟨v', ms, stepped, rejected⟩

/-- A node with an output under a number, whose action reads what is not declared. -/
def numberedItems : List Item := [
  .leaf (.object 0 0) (.function {
    label := "a"
    signature := [⟨"args", .standard, false⟩, ⟨"store", .standard, false⟩, ⟨"completion", .standard, false⟩]
    steps := [.attribute "missing" []] } {}),
  .mapping (.object 1 0) false [(.atom (.int 1), .list [])]]

def numbered : Plan where
  tree := Graph.compileItems numberedItems

/-- Whether a run is about to call a node whose output is a number, and the call fails on joining the outputs. -/
def isUnjoinable (w : World) (run : RunId) : Bool :=
  match w.focus with
  | .enter _ (.sequential own ⟨head, some [(.atom (.int 1), branch)]⟩) _ =>
    match w.answer numbered run ⟨head, some [(.atom (.int 1), branch)]⟩ .sequential with
    | (.error ⟨_, .joinNotText 0 "int"⟩, _) => own == run
    | _ => false
  | _ => false

/-- The failure is not that of a missing attribute, and the run is rejected with it. -/
theorem numbered_output_breaks_shortcut : ∃ f v v' ms e, f.className ≠ "AttributeError" ∧ e.fault = f ∧
    Runs numbered 0 v ∧ v.step numbered = some v' ∧ v'.status 0 = .rejected ms e := by
  have seen : (firstRun numbered 8).isUnjoinable 0 = true := by decide +kernel
  have runs : Runs numbered 0 (firstRun numbered 8) := runs_firstRun numbered 5
  have running : (firstRun numbered 8).isSettled 0 = false := by decide +kernel
  generalize firstRun numbered 8 = v at seen runs running
  unfold isUnjoinable at seen
  split at seen
  · rename_i t own head branch stack here
    split at seen
    · rename_i id w₁ fails
      obtain rfl := eq_of_beq seen
      let n : Node := ⟨head, some [(.atom (.int 1), branch)]⟩
      let d := descriptor numbered n .sequential
      have made : (newCompletion v d).2.completion? v.completions.size = some ⟨d, .latest none false⟩ := by
        simp [newCompletion, completion?, addCompletion, d, descriptor]
      have book : "missing" ∉ Descriptor.bookNames .sequential := by decide +kernel
      have method : ∀ p ∈ Method.ofPolicy .sequential, p.1 ≠ "missing" := by decide +kernel
      have undeclared : d.Undeclared "missing" := by
        refine ⟨?_, book, method, by decide +kernel, by decide +kernel⟩
        simp [d, descriptor, n, Node.outputNames, Node.routes, Key.text?]
      let scope : Scope := ⟨.null, .store, .completion .sequential v.completions.size⟩
      have handed : scope.completion = .completion .sequential v.completions.size := rfl
      obtain ⟨f, -, first, -, -, -, rejects⟩ := undeclared_shortcut_fails handed made undeclared
      have inner : "missing".startsWith "_" = false := by decide +kernel
      have same : f = .joinNotText 0 "int" := first [] _ [] inner rfl (by simp) rfl
      obtain ⟨v', ms, stepped, rejected⟩ := rejects 0 v ⟨id, _⟩ same.symm runs running (.called here fails)
      exact ⟨f, v, v', ms, _, by rw [same]; decide, same.symm, runs, stepped, rejected⟩
    · cases seen
  · cases seen

end World

end Conductor
