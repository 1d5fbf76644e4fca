import Conductor.Graph.Literal
import Conductor.Proofs.Readback
import Conductor.Proofs.Written

/-!
# Making

Whatever is made of a literal consists of objects that are told apart by their identities: an action is made once
and has a token of its own, the parts of a value are numbered, and of some objects there is only one. No mapping
among them has a key twice.
-/

namespace Conductor

/-! ### Objects -/

namespace Item

mutual

def objects : Item → List Item
  | list items | tuple items => objectsOf items
  | mapping id isProxy entries => mapping id isProxy entries :: objectsOfPairs entries
  | leaf id action => [leaf id action]

def objectsOf : List Item → List Item
  | [] => []
  | i :: is => i.objects ++ objectsOf is

def objectsOfPairs : List (Key × Item) → List Item
  | [] => []
  | (_, i) :: rest => i.objects ++ objectsOfPairs rest

end

variable {i j : Item} {xs ys items : List Item} {p q : Nat → Nat → Prop} {token next : Nat} {d : Datum}

/-- Whether an item is an object of which there is only one. -/
def IsConstant (i : Item) : Prop :=
  (∃ a, i = leaf (.single a) (.value (.atom a) {})) ∨ i = leaf (.builtin "len") .length ∨
    i = leaf (.builtin "dict") .dictionary

theorem IsConstant.unique (constant : i.IsConstant) (constant' : j.IsConstant) (same : i.identity = j.identity) :
    i = j := by
  rcases constant with ⟨a, rfl⟩ | rfl | rfl <;> rcases constant' with ⟨b, rfl⟩ | rfl | rfl <;>
    simp_all [identity]

theorem IsConstant.no_object {position : Nat} (constant : i.IsConstant) : i.identity ≠ .object token position := by
  rcases constant with ⟨a, rfl⟩ | rfl | rfl <;> simp [identity]

/-- Whether no mapping among objects has a key twice. -/
def Keyed (items : List Item) : Prop :=
  ∀ id isProxy entries, mapping id isProxy entries ∈ items → Key.apart (entries.map (·.1))

theorem Keyed.subset (keyed : Keyed ys) (within : xs ⊆ ys) : Keyed xs :=
  fun id isProxy entries member => keyed id isProxy entries (within member)

/-- Whether objects that were made at certain places are as they should be: each has a place of its own, unless it is
one of which there is only one, and no mapping has a key twice. -/
structure Stock (place : Nat → Nat → Prop) (items : List Item) : Prop where
  apart : ToldApart items
  placed : ∀ i ∈ items, i.IsConstant ∨ ∃ token position, i.identity = .object token position ∧ place token position
  keyed : Keyed items

namespace Stock

theorem nil : Stock p [] where
  apart _ member := absurd member List.not_mem_nil
  placed _ member := absurd member List.not_mem_nil
  keyed _ _ _ member := absurd member List.not_mem_nil

theorem mono (stock : Stock p items) (wider : ∀ token position, p token position → q token position) :
    Stock q items := by
  refine ⟨stock.apart, fun i member => ?_, stock.keyed⟩
  rcases stock.placed i member with constant | ⟨token, position, own, there⟩
  · exact .inl constant
  · exact .inr ⟨token, position, own, wider _ _ there⟩

theorem subset (stock : Stock p ys) (within : xs ⊆ ys) : Stock p xs where
  apart i member j member' := stock.apart i (within member) j (within member')
  placed i member := stock.placed i (within member)
  keyed := stock.keyed.subset within

theorem append (stock : Stock p xs) (stock' : Stock q ys)
    (disjoint : ∀ token position, p token position → ¬ q token position) :
    Stock (fun token position => p token position ∨ q token position) (xs ++ ys) := by
  have across : ∀ i ∈ xs, ∀ j ∈ ys, i.identity = j.identity → i = j := by
    intro i member j member' same
    rcases stock.placed i member with constant | ⟨token, position, own, there⟩
    · rcases stock'.placed j member' with constant' | ⟨token, position, own, -⟩
      · exact constant.unique constant' same
      · exact absurd (same.trans own) constant.no_object
    · rcases stock'.placed j member' with constant' | ⟨token', position', own', there'⟩
      · exact absurd (same.symm.trans own) constant'.no_object
      · obtain ⟨rfl, rfl⟩ := Identity.object.inj (own.symm.trans (same.trans own'))
        exact absurd there' (disjoint _ _ there)
  refine ⟨fun i member j member' same => ?_, fun i member => ?_, fun id isProxy entries member => ?_⟩
  · rcases List.mem_append.mp member with here | here <;> rcases List.mem_append.mp member' with here' | here'
    · exact stock.apart i here j here' same
    · exact across i here j here' same
    · exact (across j here' i here same.symm).symm
    · exact stock'.apart i here j here' same
  · rcases List.mem_append.mp member with here | here
    · exact (stock.mono fun _ _ => Or.inl).placed i here
    · exact (stock'.mono fun _ _ => Or.inr).placed i here
  · rcases List.mem_append.mp member with here | here
    · exact stock.keyed id isProxy entries here
    · exact stock'.keyed id isProxy entries here

theorem singleton (placed : i.IsConstant ∨ ∃ token position, i.identity = .object token position ∧ p token position)
    (keyed : ∀ id isProxy entries, i = mapping id isProxy entries → Key.apart (entries.map (·.1))) : Stock p [i] := by
  refine ⟨fun j member k member' _ => ?_, fun j member => ?_, fun id isProxy entries member => ?_⟩
  · exact (List.mem_singleton.mp member).trans (List.mem_singleton.mp member').symm
  · exact List.mem_singleton.mp member ▸ placed
  · exact keyed id isProxy entries (List.mem_singleton.mp member).symm

end Stock

def span (token low high : Nat) : Nat → Nat → Prop :=
  fun token' position => token' = token ∧ low ≤ position ∧ position < high

theorem ofPairs_keys (token next : Nat) (entries : List (Key × Datum)) :
    (ofPairs token next entries).1.map (·.1) = entries.map (·.1) := by
  induction entries generalizing next with
  | nil => rfl
  | cons e rest ih => simp [ofPairs, ih]

/-- The identity of a datum is that of a place, unless there is only one such object. -/
theorem identityAt_cases (token next : Nat) (d : Datum) : identityAt token next d = .object token next ∨
    ∃ a, d = .atom a ∧ isSingle a ∧ identityAt token next d = .single a := by
  unfold identityAt
  split
  · split
    · rename_i single
      exact .inr ⟨_, rfl, single, rfl⟩
    · exact .inl rfl
  · exact .inl rfl

theorem identity_of_leaf {id : Identity} {action : Action} (made : (ofDatum token next d).1 = leaf id action) :
    id = identityAt token next d := by
  unfold ofDatum at made
  split at made <;> cases made
  rfl

theorem Stock.spans {low middle high : Nat} (stock : Stock (span token low middle) xs)
    (stock' : Stock (span token middle high) ys) (first : low ≤ middle) (rest : middle ≤ high) :
    Stock (span token low high) (xs ++ ys) := by
  have apart : ∀ token' position, span token low middle token' position → ¬ span token middle high token' position := by
    rintro _ position ⟨rfl, -, below⟩ ⟨-, above, -⟩
    omega
  refine (stock.append stock' apart).mono ?_
  rintro _ position (⟨rfl, above, below⟩ | ⟨rfl, above, below⟩)
  · exact ⟨rfl, above, by omega⟩
  · exact ⟨rfl, by omega, below⟩

theorem stock_ofDatum (token : Nat) :
    (∀ next d, d.isKeyed → next ≤ (ofDatum token next d).2 ∧
      Stock (span token next (ofDatum token next d).2) (ofDatum token next d).1.objects) ∧
    (∀ next entries, Datum.isKeyedPairs entries → next ≤ (ofPairs token next entries).2 ∧
      Stock (span token next (ofPairs token next entries).2) (objectsOfPairs (ofPairs token next entries).1)) ∧
    (∀ next ds, Datum.isKeyedList ds → next ≤ (ofData token next ds).2 ∧
      Stock (span token next (ofData token next ds).2) (objectsOf (ofData token next ds).1)) := by
  have sequence {next after : Nat} {items : List Item}
      (inner : next + 1 ≤ after ∧ Stock (span token (next + 1) after) items) :
      next ≤ after ∧ Stock (span token next after) items := by
    obtain ⟨later, stock⟩ := inner
    refine ⟨by omega, stock.mono ?_⟩
    rintro _ position ⟨rfl, above, below⟩
    exact ⟨rfl, by omega, below⟩
  have container {next after : Nat} {isProxy : Bool} {es : List (Key × Item)} (apart : Key.apart (es.map (·.1)))
      (inner : next + 1 ≤ after ∧ Stock (span token (next + 1) after) (objectsOfPairs es)) :
      next ≤ after ∧ Stock (span token next after) (mapping (.object token next) isProxy es).objects := by
    obtain ⟨later, stock⟩ := inner
    have itself : Stock (span token next (next + 1)) [mapping (.object token next) isProxy es] := by
      refine .singleton (.inr ⟨token, next, rfl, rfl, Nat.le_refl _, Nat.lt_succ_self _⟩) fun _ _ _ same => ?_
      obtain ⟨-, -, rfl⟩ := Item.mapping.inj same
      exact apart
    rw [objects]
    exact ⟨by omega, itself.spans stock (Nat.le_succ _) later⟩
  have joined {low middle high : Nat} {xs ys : List Item} (first : low ≤ middle ∧ Stock (span token low middle) xs)
      (rest : middle ≤ high ∧ Stock (span token middle high) ys) :
      low ≤ high ∧ Stock (span token low high) (xs ++ ys) :=
    ⟨Nat.le_trans first.1 rest.1, first.2.spans rest.2 first.1 rest.1⟩
  refine ofDatum.mutual_induct token _ _ _ ?list ?tuple ?dict ?proxy ?other ?noData ?data ?noPairs ?pairs
  case list | tuple =>
    intro next items is after made ih keyed
    simp only [made] at ih
    simpa only [ofDatum, made, objects] using sequence (ih keyed)
  case dict | proxy =>
    intro next entries es after made ih keyed
    obtain ⟨apart, inner⟩ := Bool.and_eq_true_iff.mp keyed
    have keys := ofPairs_keys token (next + 1) entries
    simp only [made] at ih keys
    simpa only [ofDatum, made] using container (keys ▸ apart) (ih inner)
  case other =>
    intro next d noList noTuple noDict noProxy _
    rw [ofDatum.eq_5 token next d noList noTuple noDict noProxy, objects]
    refine ⟨Nat.le_succ _, .singleton ?_ fun _ _ _ same => nomatch same⟩
    rcases identityAt_cases token next d with own | ⟨a, rfl, -, own⟩ <;> rw [own]
    · exact .inr ⟨token, next, rfl, rfl, Nat.le_refl _, Nat.lt_succ_self _⟩
    · exact .inl (.inl ⟨a, rfl⟩)
  case noData | noPairs => exact fun next _ => ⟨Nat.le_refl _, .nil⟩
  case data =>
    intro next d ds i next₁ made is next₂ made' ih ih' keyed
    obtain ⟨first, others⟩ := Bool.and_eq_true_iff.mp keyed
    simp only [made] at ih
    simp only [made'] at ih'
    simp only [ofData, made, made', objectsOf]
    exact joined (ih first) (ih' others)
  case pairs =>
    intro next k d rest i next₁ made es next₂ made' ih ih' keyed
    obtain ⟨first, others⟩ := Bool.and_eq_true_iff.mp keyed
    simp only [made] at ih
    simp only [made'] at ih'
    simp only [ofPairs, made, made', objectsOfPairs]
    exact joined (ih first) (ih' others)

end Item

/-! ### Made actions -/

namespace Action

/-- Whether an action can be one that is made: a value has its keys apart, and what there is only one of has nothing
attached. -/
def Fits (a : Action) : Prop :=
  ∀ d attributes, a = .value d attributes → d.isKeyed ∧ ∀ x, d = .atom x → Item.isSingle x → attributes = {}

variable {a a' : Action} {attributes : Attributes} {h : Heap}

theorem fits_of_callable (callable : ∀ d attributes, a ≠ .value d attributes) : a.Fits :=
  fun d attributes same => absurd same (callable d attributes)

/-- Of values only an object takes attributes, and of that there may be many. -/
theorem Fits.attachTo {old : Attributes} {name : String} {v : Value} {d : Datum} (fits : a.Fits)
    (done : a.attachTo old name v d = .ok attributes) : (a.withAttributes attributes).Fits := by
  cases a with
  | value d' attributes' =>
    obtain ⟨keyed, -⟩ := fits d' attributes' rfl
    cases d' with
    | atom x =>
      cases x with
      | object token shown =>
        rintro _ _ ⟨⟩
        exact ⟨keyed, fun x same single => by cases same; cases single⟩
      | _ => cases done
    | _ => cases done
  | _ => exact fits_of_callable fun _ _ same => nomatch same

theorem attach_follows (a : Action) (attached : List (String × Template)) (h : Heap) :
    h.Follows (a.attach attached h).2 := by
  induction attached generalizing a h with
  | nil => exact .refl h
  | cons first rest ih =>
    obtain ⟨name, t⟩ := first
    have made := Template.eval_evaluates t h
    unfold attach
    split <;> rename_i same <;> rw [Template.make] at same <;> rw [same] at made
    · exact made.follows
    · split
      · exact made.follows
      · exact made.follows.trans (ih _ _)

theorem Fits.attach {attached : List (String × Template)} (fits : a.Fits)
    (done : (a.attach attached h).1 = .ok a') : a'.Fits := by
  induction attached generalizing a h with
  | nil => exact Except.ok.inj done ▸ fits
  | cons first rest ih =>
    obtain ⟨name, t⟩ := first
    unfold Action.attach at done
    split at done
    · cases done
    · split at done
      · cases done
      · rename_i attributes taken
        exact ih (fits.attachTo taken) done

theorem bindAhead_fits (of : Action) (positional : List Value) (keyword : List (String × Value)) :
    (of.bindAhead positional keyword).Fits := by
  refine fits_of_callable fun _ _ => ?_
  unfold bindAhead
  split
  · split <;> exact nofun
  · exact nofun

/-- What a made action stands for is told apart from whatever was made before. -/
theorem Fits.stock (fits : a.Fits) (token : Nat) :
    Item.Stock (fun token' _ => token' = token) (Workshop.itemOf ⟨token, a⟩).objects := by
  have leaf {i : Item} (own : ∀ id isProxy entries, i ≠ .mapping id isProxy entries)
      (placed : i.IsConstant ∨ i.identity = .object token 0) : Item.Stock (fun token' _ => token' = token) [i] :=
    .singleton (placed.imp_right fun own => ⟨token, 0, own, rfl⟩) fun id isProxy entries same =>
      absurd same (own id isProxy entries)
  cases a with
  | value d attributes =>
    obtain ⟨keyed, bare⟩ := fits d attributes rfl
    have parts := ((Item.stock_ofDatum token).1 0 d keyed).2.mono fun _ _ within => within.1
    unfold Workshop.itemOf
    dsimp only
    split
    · rename_i id action _ made
      obtain rfl : id = Item.identityAt token 0 d := Item.identity_of_leaf (congrArg Prod.fst made)
      refine leaf nofun ?_
      rcases Item.identityAt_cases token 0 d with own | ⟨x, rfl, single, own⟩ <;> rw [own]
      · exact .inr rfl
      · rw [bare x rfl single]
        exact .inl (.inl ⟨x, rfl⟩)
    · rename_i made
      rw [made] at parts
      exact parts
  | length => exact leaf nofun (.inl (.inr (.inl rfl)))
  | dictionary => exact leaf nofun (.inl (.inr (.inr rfl)))
  | _ => exact leaf nofun (.inr rfl)

end Action

/-! ### Workshops -/

namespace Workshop

variable {α β : Type} {w w₁ w₂ : Workshop} {c : Catalogue} {h : Heap} {pool : List Item} {a : Action} {m : Made}
  {x : Except Fault α × Workshop} {f : Fault} {v : α} {P : List Item → α → Prop}

/-- Whether what has been made in a workshop is as it should be. `pool` has all objects that were made. -/
structure Tidy (pool : List Item) (w : Workshop) : Prop where
  stock : Item.Stock (fun token _ => token < w.heap.tokens) pool
  made : ∀ name m, (name, m) ∈ w.catalogue.made → (itemOf m).objects ⊆ pool
  keyed : w.heap.IsKeyed

theorem Tidy.follows (tidy : Tidy pool w) (follows : w.heap.Follows h) : Tidy pool { w with heap := h } :=
  ⟨tidy.stock.mono fun _ _ used => Nat.lt_of_lt_of_le used follows.tokens, tidy.made, follows.keyed tidy.keyed⟩

/-- A workshop in which nothing has been made yet. -/
theorem tidy_new (declarations : List (String × Declaration)) : Tidy [] { catalogue := { declarations } } :=
  ⟨.nil, fun _ _ known => absurd known List.not_mem_nil, ⟨by simp, by simp⟩⟩

theorem Tidy.add {items : List Item} (tidy : Tidy pool w)
    (stock : Item.Stock (fun token _ => token = w.heap.tokens) items) :
    Tidy (pool ++ items) { w with heap := w.heap.newToken.2 } := by
  have apart : ∀ token (_ : Nat), token < w.heap.tokens → ¬ token = w.heap.tokens :=
    fun token _ used same => Nat.lt_irrefl _ (same ▸ used)
  refine ⟨(tidy.stock.append stock apart).mono fun token _ either => ?_, fun name m known => ?_,
    (Heap.Follows.newToken w.heap).keyed tidy.keyed⟩
  · exact Nat.lt_succ_iff.mpr (either.elim Nat.le_of_lt Nat.le_of_eq)
  · exact List.Subset.trans (tidy.made name m known) (List.subset_append_left _ _)

def Makes (pool : List Item) (P : List Item → α → Prop) (x : Except Fault α × Workshop) : Prop :=
  ∃ pool', pool ⊆ pool' ∧ Tidy pool' x.2 ∧ ∀ v, x.1 = .ok v → P pool' v

def Offers (pool : List Item) (m : Made) : Prop := (itemOf m).objects ⊆ pool

theorem Makes.failed (tidy : Tidy pool w) : Makes pool P (.error f, w) :=
  ⟨pool, List.Subset.refl _, tidy, fun _ same => nomatch same⟩

theorem Makes.ok (tidy : Tidy pool w) (own : P pool v) : Makes pool P (.ok v, w) :=
  ⟨pool, List.Subset.refl _, tidy, fun _ same => Except.ok.inj same ▸ own⟩

theorem Makes.then {Q : List Item → β → Prop} {y : Except Fault β × Workshop} (first : Makes pool P x)
    (rest : ∀ pool', pool ⊆ pool' → Tidy pool' x.2 → (∀ v, x.1 = .ok v → P pool' v) → Makes pool' Q y) :
    Makes pool Q y := by
  obtain ⟨pool₁, more, tidy, own⟩ := first
  obtain ⟨pool₂, more', tidy', own'⟩ := rest pool₁ more tidy own
  exact ⟨pool₂, List.Subset.trans more more', tidy', own'⟩

theorem makes_keep (tidy : Tidy pool ⟨c, h⟩) (fits : a.Fits) (name : String) :
    Makes pool Offers (.ok (c.keep name a h).1, ⟨(c.keep name a h).2.1, (c.keep name a h).2.2⟩) := by
  have added := tidy.add (fits.stock h.tokens)
  refine ⟨_, List.subset_append_left _ _, ⟨added.stock, fun name' m known => ?_, added.keyed⟩, fun m same => ?_⟩
  · rcases List.mem_cons.mp known with same | old
    · obtain ⟨-, rfl⟩ := Prod.mk.inj same
      exact List.subset_append_right _ _
    · exact added.made name' m old
  · obtain rfl := Except.ok.inj same
    exact List.subset_append_right _ _

theorem makes_finish (tidy : Tidy pool ⟨c, h⟩) (fits : a.Fits) (attached : List (String × Template)) (name : String) :
    let r : Except Fault Made × Catalogue × Heap := match a.attach attached h with
      | (.error f, h) => (.error f, c, h)
      | (.ok a, h) =>
        let (made, c, h) := c.keep name a h
        (.ok made, c, h)
    Makes pool Offers (r.1, ⟨r.2.1, r.2.2⟩) := by
  have follows := a.attach_follows attached h
  dsimp only
  split <;> rename_i same <;> rw [same] at follows
  · exact .failed (tidy.follows follows)
  · exact makes_keep (tidy.follows follows) (fits.attach (by rw [same])) name

theorem makeKeywords_follows (keyword : List (String × Template)) (h : Heap) :
    h.Follows (Catalogue.makeKeywords keyword h).2 := by
  induction keyword generalizing h with
  | nil => exact .refl h
  | cons first rest ih =>
    obtain ⟨name, t⟩ := first
    have made := Template.eval_evaluates t h
    unfold Catalogue.makeKeywords
    split <;> rename_i h₁ same <;> rw [Template.make] at same <;> rw [same] at made
    · exact made.follows
    · have others := made.follows.trans (ih h₁)
      split <;> rename_i same' <;> rw [same'] at others <;> exact others

theorem makes_known {name : String} (tidy : Tidy pool ⟨c, h⟩) (known : c.made.lookup name = some m) :
    Makes pool Offers (.ok m, ⟨c, h⟩) := by
  obtain ⟨before, after, split, -⟩ := List.lookup_eq_some_iff.mp known
  exact .ok tidy (tidy.made name m (by simp [split]))

theorem makeWithin_makes (depth : Nat) (name : String) (tidy : Tidy pool ⟨c, h⟩) :
    Makes pool Offers
      ((c.makeWithin depth name h).1, ⟨(c.makeWithin depth name h).2.1, (c.makeWithin depth name h).2.2⟩) := by
  induction depth generalizing name c h pool with
  | zero =>
    unfold Catalogue.makeWithin
    split
    · rename_i m known
      exact makes_known tidy known
    · exact .failed tidy
  | succ depth ih =>
    unfold Catalogue.makeWithin
    split
    · rename_i m known
      exact makes_known tidy known
    · cases declared : c.declarations.lookup name with
      | none => exact .failed tidy
      | some d =>
        dsimp only
        split
        · split
          · exact .failed tidy
          · exact makes_finish tidy (Action.fits_of_callable (by simp)) _ name
        · rename_i of positional keyword _
          have base := ih of tidy
          split <;> rename_i c₁ h₁ same <;> rw [same] at base
          · exact base.then fun _ _ tidy₁ _ => .failed tidy₁
          · refine base.then fun pool₁ more tidy₁ _ => ?_
            have first := (Template.evalList_evaluates positional h₁).follows
            split <;> rename_i h₂ same₂ <;> rw [Template.makeList] at same₂ <;> rw [same₂] at first
            · exact .failed (tidy₁.follows first)
            · have both := first.trans (makeKeywords_follows keyword h₂)
              split <;> rename_i same₃ <;> rw [same₃] at both
              · exact .failed (tidy₁.follows both)
              · split
                · exact .failed (tidy₁.follows both)
                · exact makes_finish (tidy₁.follows both) (Action.bindAhead_fits _ _ _) _ name
        · rename_i of _
          have base := ih of tidy
          split <;> rename_i c₁ h₁ same <;> rw [same] at base
          · exact base.then fun _ _ tidy₁ _ => .failed tidy₁
          · refine base.then fun pool₁ more tidy₁ _ => ?_
            split
            · exact .failed tidy₁
            · exact makes_finish tidy₁ (Action.fits_of_callable (by simp)) _ name
        · exact makes_finish tidy (Action.fits_of_callable (by simp)) _ name
        · exact makes_finish tidy (Action.fits_of_callable (by simp)) _ name
        · rename_i t _
          have made := Template.eval_evaluates t h
          split <;> rename_i same <;> rw [Template.make] at same <;> rw [same] at made
          · exact .failed (tidy.follows made.follows)
          · refine makes_finish (tidy.follows made.follows) ?_ _ name
            rintro _ _ ⟨⟩
            exact ⟨Heap.isKeyed_read (made.follows.keyed tidy.keyed) (made.made tidy.keyed _ rfl), fun _ _ _ => rfl⟩

/-! ### Literals -/

theorem insertItem_null (acc : List (Key × Item)) (k : Key) (i : Item) :
    (insertItem acc k i).map (fun e => (e.1, Value.null)) =
      Entries.insert (acc.map fun e => (e.1, Value.null)) k .null := by
  induction acc with
  | nil => rfl
  | cons e rest ih =>
    obtain ⟨k', i'⟩ := e
    rw [insertItem, List.map_cons, Entries.insert]
    split
    · rfl
    · rw [List.map_cons, ih]

theorem apart_insertItem {acc : List (Key × Item)} (apart : Key.apart (acc.map (·.1))) (k : Key) (i : Item) :
    Key.apart ((insertItem acc k i).map (·.1)) := by
  have keys (es : List (Key × Item)) : es.map (·.1) = Entries.keys (es.map fun e => (e.1, Value.null)) := by
    simp [Entries.keys]
  rw [keys] at apart ⊢
  rw [insertItem_null]
  exact Entries.apart_insert apart

theorem objectsOfPairs_insertItem (acc : List (Key × Item)) (k : Key) (i : Item) :
    Item.objectsOfPairs (insertItem acc k i) ⊆ Item.objectsOfPairs acc ++ i.objects := by
  induction acc with
  | nil => simp [insertItem, Item.objectsOfPairs]
  | cons e rest ih =>
    obtain ⟨k', i'⟩ := e
    intro j member
    rw [insertItem] at member
    split at member
    · simp only [Item.objectsOfPairs, List.mem_append] at member ⊢
      tauto
    · simp only [Item.objectsOfPairs, List.mem_append] at member ⊢
      rcases member with here | later
      · exact .inl (.inl here)
      · rcases List.mem_append.mp (ih later) with old | new
        · exact .inl (.inr old)
        · exact .inr new

structure Pairs (pool : List Item) (es : List (Key × Item)) : Prop where
  apart : Key.apart (es.map (·.1))
  objects : Item.objectsOfPairs es ⊆ pool

mutual

theorem make_makes (l : Literal) {w : Workshop} {pool : List Item} (tidy : Tidy pool w) :
    Makes pool (fun pool i => i.objects ⊆ pool) (make l w) := by
  match l with
  | .action name =>
    have made := makeWithin_makes (w.catalogue.declarations.length + 1) name tidy
    unfold make
    dsimp only [Workshop.action, Catalogue.make]
    generalize w.catalogue.makeWithin _ name w.heap = result at made
    obtain ⟨made', c, h⟩ := result
    cases made' with
    | error f => exact made.then fun _ _ tidy' _ => .failed tidy'
    | ok m => exact made.then fun _ _ tidy' own => .ok tidy' (own m rfl)
  | .list items =>
    have made := makeList_makes items tidy
    unfold make
    split <;> rename_i same <;> rw [same] at made
    · exact made.then fun _ _ tidy' _ => .failed tidy'
    · exact made.then fun _ _ tidy' own => .ok tidy' (own _ rfl)
  | .tuple items =>
    have made := makeList_makes items tidy
    unfold make
    split <;> rename_i same <;> rw [same] at made
    · exact made.then fun _ _ tidy' _ => .failed tidy'
    · exact made.then fun _ _ tidy' own => .ok tidy' (own _ rfl)
  | .mapping isProxy entries =>
    have none : Pairs pool [] := ⟨rfl, by simp [Item.objectsOfPairs]⟩
    have made := makeEntries_makes entries tidy none
    unfold make
    split <;> rename_i w₁ same <;> rw [same] at made
    · exact made.then fun _ _ tidy' _ => .failed tidy'
    · rename_i es
      refine made.then fun pool' _ tidy' own => ?_
      obtain ⟨apart, objects⟩ := own es rfl
      have itself : Item.Stock (fun token _ => token = w₁.heap.tokens)
          [.mapping (.object w₁.heap.tokens 0) isProxy es] := by
        refine .singleton (.inr ⟨_, 0, rfl, rfl⟩) fun _ _ _ same => ?_
        obtain ⟨-, -, rfl⟩ := Item.mapping.inj same
        exact apart
      refine ⟨_, List.subset_append_left _ _, tidy'.add itself, fun i same => ?_⟩
      obtain rfl := Except.ok.inj same
      rw [Item.objects]
      refine List.cons_subset.mpr ⟨by simp [Heap.newToken], ?_⟩
      exact List.Subset.trans objects (List.subset_append_left _ _)
  | .value t =>
    have made := Template.eval_evaluates t w.heap
    unfold make
    split <;> rename_i h₁ same <;> rw [Template.make] at same <;> rw [same] at made
    · exact .failed (tidy.follows made.follows)
    · rename_i v
      have later := made.follows.trans (.newToken h₁)
      have keyed := Heap.isKeyed_read (later.keyed tidy.keyed) (made.made tidy.keyed v rfl)
      have parts := ((Item.stock_ofDatum h₁.tokens).1 0 _ keyed).2.mono fun _ _ within => within.1
      refine ⟨_, List.subset_append_left _ _, (tidy.follows made.follows).add parts, fun i same => ?_⟩
      obtain rfl := Except.ok.inj same
      exact List.subset_append_right _ _

theorem makeList_makes (ls : List Literal) {w : Workshop} {pool : List Item} (tidy : Tidy pool w) :
    Makes pool (fun pool is => Item.objectsOf is ⊆ pool) (makeList ls w) := by
  match ls with
  | [] => exact .ok tidy (by simp [Item.objectsOf])
  | l :: ls =>
    have made := make_makes l tidy
    unfold makeList
    split <;> rename_i w₁ same <;> rw [same] at made
    · exact made.then fun _ _ tidy' _ => .failed tidy'
    · refine made.then fun pool₁ _ tidy₁ own => ?_
      have others := makeList_makes ls tidy₁
      split <;> rename_i same' <;> rw [same'] at others
      · exact others.then fun _ _ tidy' _ => .failed tidy'
      · refine others.then fun pool₂ more tidy₂ own' => .ok tidy₂ ?_
        exact List.append_subset.mpr ⟨List.Subset.trans (own _ rfl) more, own' _ rfl⟩

theorem makeEntries_makes (entries : List (Template × Literal)) {w : Workshop} {pool : List Item} (tidy : Tidy pool w)
    {acc : List (Key × Item)} (before : Pairs pool acc) : Makes pool Pairs (makeEntries acc entries w) := by
  match entries with
  | [] => exact .ok tidy before
  | (t, l) :: rest =>
    have key := Template.eval_evaluates t w.heap
    unfold makeEntries
    split <;> rename_i h₁ same <;> rw [Template.make] at same <;> rw [same] at key
    · exact .failed (tidy.follows key.follows)
    · have made := make_makes l (tidy.follows key.follows)
      split <;> rename_i w₁ same' <;> rw [same'] at made
      · exact made.then fun _ _ tidy' _ => .failed tidy'
      · rename_i i
        refine made.then fun pool₁ more tidy₁ own => ?_
        split
        · exact .failed tidy₁
        · refine makeEntries_makes rest tidy₁ ⟨apart_insertItem before.apart _ i, ?_⟩
          refine List.Subset.trans (objectsOfPairs_insertItem _ _ _) (List.append_subset.mpr ⟨?_, own i rfl⟩)
          exact List.Subset.trans before.objects more

end

end Workshop

end Conductor
