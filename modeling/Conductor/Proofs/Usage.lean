import Conductor.Proofs.Growth

/-!
# What comes of using a descriptor

A use of a descriptor denotes one result or fails, whatever its node declares, and one that fails leaves
everything as it is. Of the results that are denoted one after the other, a sequential descriptor gives the
last one before it is first collected, and a concurrent one is settled by the first, unless it has been failed
before.
-/

namespace Conductor

namespace Descriptor

variable {d : Descriptor} {name : String} {arguments : List Value}

/-- A use that an action can make of a descriptor: it calls it, or an attribute that is none of its books and
none of its inner methods. -/
inductive Use (d : Descriptor) where
  | call (arguments : List Value)
  | through (name : String) (arguments : List Value)
      (outer : name.startsWith "_" = true → d.member? name = none)

/-- The result with the default output and a payload, or none. -/
def unnamed (d : Descriptor) : List Value → Option Result
  | [] => some ⟨d.defaultOutput, .null, false⟩
  | [payload] => some ⟨d.defaultOutput, payload, false⟩
  | _ => none

def named (output : Value) : List Value → Option Result
  | [] => some ⟨output, .null, true⟩
  | [payload] => some ⟨output, payload, true⟩
  | _ => none

/-- The result with an output that is given first, and a payload or none. -/
def output : List Value → Option Result
  | [] => none
  | output :: payload => named output payload

/-- The result that a use denotes. A leading text names an output, and so does an attribute that is declared,
even if a method has the same name. -/
def Use.result? : d.Use → Option Result
  | .call (.atom (.text output) :: payload) => named (.text output) payload
  | .call payload => d.unnamed payload
  | .through name arguments _ =>
    if d.isShortcut name then named (.text name) arguments
    else if name = "complete" then d.unnamed arguments
    else if name = "output" then Descriptor.output arguments
    else none

theorem Use.result?_through {outer : name.startsWith "_" = true → d.member? name = none} :
    (Use.through name arguments outer).result? =
      if d.isShortcut name then named (.text name) arguments
      else if name = "complete" then d.unnamed arguments
      else if name = "output" then Descriptor.output arguments
      else none := rfl

/-- Whether what comes of a use is the result it denotes, or a failure if it denotes none. -/
def Accords (x : Except Fault Reported) : Option Result → Prop
  | some r => x = .ok (.result r)
  | none => ∃ f, x = .error f

/-! ### Names -/

theorem fixed_inner : ∀ p ∈ Inherited.fixed, p.1.startsWith "_" = true := by decide +kernel

theorem members_inner : ∀ p ∈ Inherited.members, p.1.startsWith "_" = true := by decide +kernel

theorem bookNames_inner (policy : Policy) : ∀ n ∈ bookNames policy, n.startsWith "_" = true := by
  cases policy <;> decide +kernel

theorem ofPolicy_inner (policy : Policy) : ∀ p ∈ Method.ofPolicy policy,
    p.1 = "complete" ∨ p.1 = "output" ∨ p.1.startsWith "_" = true := by
  cases policy <;> decide +kernel

/-! ### Reports -/

theorem refused_reports {m : Method} {p : Profile} {given : Nat} {next : Unit → Except Fault Reported}
    (profile : m.profile d.policy = some p)
    (unfit : given < p.required.length ∨ p.required.length + p.optional < given) :
    Accords (m.check d.policy given >>= next) none := by
  simp only [Method.check, profile, Profile.check]
  split_ifs with few many
  · exact ⟨_, rfl⟩
  · exact ⟨_, rfl⟩
  · exact absurd unfit (not_or.mpr ⟨few, many⟩)

section Pristine

variable (pristine : d.written = [])

include pristine

theorem delegate_pristine : d.delegate name = .ok () := by simp [delegate, pristine]

theorem book_pristine : d.book name = .ok none := by simp [book, pristine]

theorem restore_pristine : d.restore name = d := by
  obtain ⟨_, _, _, _, _⟩ := d
  obtain rfl : _ = [] := pristine
  rfl

theorem emitDefault_reports (arguments : List Value) : Accords (d.emitDefault arguments) (d.unnamed arguments) := by
  have output : d.unnamedOutput = .ok d.defaultOutput := by simp [unnamedOutput, book_pristine pristine, Except.map]
  have ends (x : Reported) : d.emit x = .ok x := by simp [emit, delegate_pristine pristine, Except.map]
  unfold emitDefault
  rw [output]
  match arguments with
  | [] => exact ends _
  | [payload] => exact ends _
  | _ :: _ :: more => exact refused_reports rfl (.inr (by simp))

theorem emitNamed_reports {output : Value} (arguments : List Value) :
    Accords (d.emitNamed (output :: arguments)) (named output arguments) := by
  have ends (x : Reported) : d.emit x = .ok x := by simp [emit, delegate_pristine pristine, Except.map]
  unfold emitNamed
  match arguments with
  | [] => exact ends _
  | [payload] => exact ends _
  | _ :: _ :: more => exact refused_reports rfl (.inr (by simp))

/-- What calling a method reports, if it is called with arguments that it takes. -/
theorem complete_reports (arguments : List Value) :
    ∃ x, d.report? arguments .complete = some x ∧ Accords x (d.unnamed arguments) := by
  refine ⟨_, rfl, ?_⟩
  simp only [delegate_pristine pristine]
  match arguments with
  | [] => exact emitDefault_reports pristine [.null]
  | [payload] => exact emitDefault_reports pristine [payload]
  | _ :: _ :: more => exact refused_reports rfl (.inr (by simp))

theorem output_reports (arguments : List Value) :
    ∃ x, d.report? arguments .output = some x ∧ Accords x (output arguments) := by
  refine ⟨_, rfl, ?_⟩
  simp only [delegate_pristine pristine]
  match arguments with
  | [] => exact refused_reports rfl (.inl (by simp))
  | [output] => exact emitNamed_reports pristine [.null]
  | [output, payload] => exact emitNamed_reports pristine [payload]
  | _ :: _ :: _ :: more => exact refused_reports rfl (.inr (by simp))

theorem call_reports : Accords (d.call arguments) (Use.call arguments : d.Use).result? := by
  have unnamed := emitDefault_reports pristine arguments
  match arguments with
  | [] =>
    simp only [call, delegate_pristine pristine]
    exact unnamed
  | v :: payload =>
    by_cases text : isText v
    · simp only [call, text, if_true, delegate_pristine pristine]
      unfold isText at text
      split at text
      · exact emitNamed_reports pristine _
      · cases text
    · simp only [call, text, Bool.false_eq_true, if_false, delegate_pristine pristine]
      have same : (Use.call (v :: payload) : d.Use).result? = d.unnamed (v :: payload) := by
        unfold Use.result?
        split
        · rename_i same
          cases same
          exact absurd rfl text
        · rename_i same
          cases same
          rfl
        · rename_i same
          cases same
      rw [same]
      exact unnamed

/-- Under a name without an underscore in front there are the declared outputs and two methods. -/
theorem member?_pristine (outer : name.startsWith "_" = false) :
    d.member? name = if d.isShortcut name then some (.declared name)
      else if name = "complete" then some (.method .complete)
      else if name = "output" then some (.method .output) else none := by
  have apart {n : String} (under : n.startsWith "_" = true) : name ≠ n := by
    rintro rfl
    rw [under] at outer
    cases outer
  have fixed : Inherited.fixed.lookup name = none :=
    List.lookup_eq_none_iff.mpr fun p member => bne_iff_ne.mpr (apart (fixed_inner p member))
  have inherited : Inherited.members.lookup name = none :=
    List.lookup_eq_none_iff.mpr fun p member => bne_iff_ne.mpr (apart (members_inner p member))
  have own : d.own? name = if d.isShortcut name then some (.declared name) else none := by
    have book : name ∉ bookNames d.policy := fun member => apart (bookNames_inner d.policy name member) rfl
    simp [own?, pristine, book]
  have method : Method.named? d.policy name = if name = "complete" then some .complete
      else if name = "output" then some .output else none := by
    split
    · rename_i same
      subst same
      cases d.policy <;> rfl
    · rename_i first
      split
      · rename_i same
        subst same
        cases d.policy <;> rfl
      · rename_i second
        refine List.lookup_eq_none_iff.mpr fun p member => bne_iff_ne.mpr ?_
        rcases ofPolicy_inner d.policy p member with same | same | under
        · exact same ▸ first
        · exact same ▸ second
        · exact apart under
  have kind : name ≠ "__class__" := apart (by decide +kernel)
  simp only [member?, kind, fixed, own, method, inherited, if_false]
  by_cases shortcut : d.isShortcut name
  · simp only [shortcut, if_true]
  · simp only [shortcut, Bool.false_eq_true, if_false]
    by_cases first : name = "complete"
    · simp only [first, if_true]
    · by_cases second : name = "output" <;> simp [first, second]

end Pristine

end Descriptor

namespace World

open Descriptor

variable {w w' : World} {c : CompletionId} {d : Descriptor} {recorded : Recorded}

def use (w : World) (c : CompletionId) : d.Use → Except Fault Unit × World
  | .call arguments => w.callValue (.completion d.policy c) arguments
  | .through name arguments _ =>
    match w.attributeOf (.completion d.policy c) name with
    | .error f => (.error f, w)
    | .ok a => w.callAttribute a arguments

def Records (w : World) (c : CompletionId) (x : Except Fault Unit × World) : Option Result → Prop
  | some r => x = w.record c (.result r)
  | none => ∃ f, x = (.error f, w)

theorem recordReport_records {x : Except Fault Reported} {r : Option Result} (reports : Accords x r) :
    w.Records c (w.recordReport c x) r := by
  cases r with
  | some r =>
    obtain rfl := reports
    rfl
  | none =>
    obtain ⟨f, rfl⟩ := reports
    exact ⟨f, rfl⟩

/-- A use of a descriptor records the result it denotes, and does nothing if it denotes none. -/
theorem use_records (pristine : d.written = []) (known : w.completion? c = some ⟨d, recorded⟩) (u : d.Use) :
    w.Records c (w.use c u) u.result? := by
  cases u with
  | call arguments =>
    have same : w.use c (Use.call arguments : d.Use) = w.recordReport c (d.call arguments) := by
      simp only [use, callValue, callCompletion, known]
    rw [same]
    exact recordReport_records (call_reports pristine)
  | through name arguments outer =>
    cases found : d.member? name with
    | none =>
      have missing : w.use c (.through name arguments outer) = (.error (d.missingAttribute w.heap name), w) := by
        simp only [use, attributeOf, known, Descriptor.member, found, Except.map]
      have means : (Use.through name arguments outer).result? = none := by
        by_cases under : name.startsWith "_" = true
        · have apart {n : String} (plain : n.startsWith "_" = false) : name ≠ n := by
            rintro rfl
            rw [plain] at under
            cases under
          have first := apart (n := "complete") (by decide +kernel)
          have second := apart (n := "output") (by decide +kernel)
          simp [Use.result?_through, isShortcut, under, first, second]
        · rw [member?_pristine pristine (Bool.eq_false_iff.mpr under)] at found
          rw [Use.result?_through]
          split_ifs at found ⊢
          rfl
      rw [missing, means]
      exact ⟨_, rfl⟩
    | some m =>
      have plain : name.startsWith "_" = false := Bool.eq_false_iff.mpr fun under =>
        nomatch found.symm.trans (outer under)
      have same : w.use c (.through name arguments outer) = w.callMember c m arguments := by
        simp only [use, attributeOf, known, Descriptor.member, found, Except.map, callAttribute]
      rw [same]
      rw [member?_pristine pristine plain] at found
      rw [Use.result?_through]
      split_ifs at found ⊢
      · obtain rfl := Option.some.inj found
        simp only [callMember, known]
        exact recordReport_records (emitNamed_reports pristine _)
      · obtain rfl := Option.some.inj found
        obtain ⟨x, report, reports⟩ := complete_reports pristine arguments
        simp only [callMember, known, callMethod, report]
        exact recordReport_records reports
      · obtain rfl := Option.some.inj found
        obtain ⟨x, report, reports⟩ := output_reports pristine arguments
        simp only [callMember, known, callMethod, report]
        exact recordReport_records reports

end World

/-! ### One after the other -/

/-- What is done with a descriptor by those who have it and by the run it belongs to. -/
inductive Handling (d : Descriptor) where
  | use (u : d.Use)
  | collect (own : d.policy = .sequential)
  | fail (e : Raised) (own : d.policy = .concurrent)

namespace Handling

variable {d : Descriptor}

def isCollect : Handling d → Bool
  | collect _ => true
  | _ => false

def result? : Handling d → Option Result
  | use u => u.result?
  | _ => none

def settlement? : Handling d → Option Settlement
  | use u => u.result?.map fun r => .value (.reported (.result r))
  | fail e _ => if e.fault.nature = .stopIteration then none else some (.failed e)
  | collect _ => none

/-- The last result that is denoted before the descriptor is first collected. -/
def last? (hs : List (Handling d)) : Option Result :=
  ((hs.takeWhile (!·.isCollect)).filterMap result?).getLast?

theorem last?_use {u : d.Use} {hs : List (Handling d)} : last? (use u :: hs) = (last? hs).or u.result? := by
  have first : (use u :: hs).takeWhile (!·.isCollect) = use u :: hs.takeWhile (!·.isCollect) := rfl
  rw [last?, first, List.filterMap_cons]
  cases means : (use u).result? with
  | none =>
    rw [show u.result? = none from means, Option.or_none]
    rfl
  | some r =>
    rw [show u.result? = some r from means]
    simp only [last?, List.getLast?_cons]
    cases ((hs.takeWhile (!·.isCollect)).filterMap result?).getLast? <;> rfl

def first? (hs : List (Handling d)) : Option Settlement := hs.findSome? settlement?

end Handling

namespace World

variable {w w' : World} {c : CompletionId} {d : Descriptor} {hs : List (Handling d)}

def handle (w : World) (c : CompletionId) : Handling d → World
  | .use u => (w.use c u).2
  | .collect _ => (w.collectReport c).2
  | .fail e _ =>
    match w.failBody c e with
    | .ok w => w
    | .error _ => w

/-- A change that leaves a descriptor and its future alone. -/
structure Exempt (c : CompletionId) (w w' : World) : Prop where
  descriptor : w'.completion? c = w.completion? c
  report : ∀ f, w.first? c = some f → (w'.future? f).map (·.settled) = (w.future? f).map (·.settled)

/-- Whether a state comes of another one by doing things with a descriptor one after the other, whatever else
is done between them. -/
inductive Handles (c : CompletionId) : List (Handling d) → World → World → Prop
  | done {w : World} : Handles c [] w w
  | apart {w w₁ w' : World} {hs : List (Handling d)} (change : Exempt c w w₁) (later : Handles c hs w₁ w') :
      Handles c hs w w'
  | handled {w w' : World} {h : Handling d} {hs : List (Handling d)} (later : Handles c hs (w.handle c h) w') :
      Handles c (h :: hs) w w'

theorem completion?_modifyCompletion {x : Completion} {change : Completion → Completion}
    (known : w.completion? c = some x) : (w.modifyCompletion c change).completion? c = some (change x) := by
  have there : w.completions[c]? = some x := known
  simp [completion?, modifyCompletion, Array.getElem?_modify, there]

section Sequential

variable {last : Option Reported} {collected : Bool}

/-- A result is kept by a sequential descriptor until that is collected. -/
theorem record_keeps (pristine : d.written = []) (known : w.completion? c = some ⟨d, .latest last collected⟩)
    (x : Reported) : (w.record c x).1 = .ok () ∧ (w.record c x).2.completion? c =
      some ⟨d, .latest (if collected then last else some x) collected⟩ := by
  have books : w.isCollected d collected = .ok collected := by
    simp [isCollected, Descriptor.book_pristine pristine, Except.map]
  have node : d.node = .ok d.nodeName := by simp [Descriptor.node, Descriptor.book_pristine pristine]
  cases collected with
  | true =>
    simp only [record, known, books, node]
    exact ⟨trivial, known⟩
  | false =>
    simp only [record, known, books]
    refine ⟨trivial, ?_⟩
    rw [modifyDescriptor, setRecorded, completion?_modifyCompletion (completion?_modifyCompletion known)]
    simp [Descriptor.restore_pristine pristine]

/-- Collecting a sequential descriptor gives what it has kept and keeps it for good. -/
theorem collectReport_keeps {r : Option Result} (pristine : d.written = [])
    (known : w.completion? c = some ⟨d, .latest (r.map .result) collected⟩) :
    (w.collectReport c).1 = .ok (.result (r.getD {})) ∧
      (w.collectReport c).2.completion? c = some ⟨d, .latest (r.map .result) true⟩ := by
  have own : w.delegate c "_collect" = .ok () := by
    simp only [delegate, known]
    exact Descriptor.delegate_pristine pristine
  simp only [collectReport, own, collect, known, Descriptor.book_pristine pristine]
  constructor
  · cases r <;> rfl
  · rw [modifyDescriptor, setRecorded, completion?_modifyCompletion (completion?_modifyCompletion known)]
    simp [Descriptor.restore_pristine pristine]

/-- What a sequential descriptor has kept after everything that was done with it. -/
theorem Handles.keeps {r : Option Result} (handles : Handles c hs w w') (pristine : d.written = [])
    (sequential : d.policy = .sequential)
    (known : w.completion? c = some ⟨d, .latest (r.map .result) collected⟩) :
    w'.completion? c = some ⟨d, .latest ((if collected then r else (Handling.last? hs).or r).map .result)
      (collected || hs.any Handling.isCollect)⟩ := by
  induction handles generalizing r collected with
  | done => cases collected <;> simpa [Handling.last?] using known
  | apart change later ih => exact ih (change.descriptor.trans known)
  | @handled w w' h hs later ih =>
    cases h with
    | use u =>
      have uses := use_records pristine known u
      have step : (w.use c u).2.completion? c =
          some ⟨d, .latest ((if collected then r else u.result?.or r).map .result) collected⟩ := by
        cases means : u.result? with
        | none =>
          rw [means] at uses
          obtain ⟨f, same⟩ := uses
          rw [same]
          simpa using known
        | some result =>
          rw [means] at uses
          rw [show w.use c u = _ from uses]
          rw [(record_keeps pristine known _).2]
          cases collected <;> rfl
      rw [ih step]
      cases collected with
      | true => simp
      | false => simp [Handling.last?_use, Handling.isCollect, Option.or_assoc]
    | collect own =>
      rw [ih (collectReport_keeps pristine known).2]
      cases collected <;> simp [Handling.last?, Handling.isCollect]
    | fail e own =>
      rw [sequential] at own
      cases own

end Sequential

section Concurrent

variable {f : FutureId} {settled : Option Settlement}

theorem completion?_settle (f : FutureId) (s : Settlement) : (w.settle f s).completion? c = w.completion? c := by
  have posted (loop : Nat) (js : List Job) (w : World) : (w.postAll loop js).completion? c = w.completion? c := by
    induction js generalizing w with
    | nil => rfl
    | cons j rest ih =>
      refine (ih (w.post loop j)).trans ?_
      unfold post
      split_ifs <;> rfl
  unfold settle
  split
  · split
    · rfl
    · exact posted _ _ _
  · rfl

theorem settle_keeps (found : (w.future? f).map (·.settled) = some settled) (s : Settlement) :
    ((w.settle f s).future? f).map (·.settled) = some (settled.or (some s)) := by
  obtain ⟨x, there, rfl⟩ := Option.map_eq_some_iff.mp found
  rw [future?_settle, if_pos rfl, there]
  cases past : x.settled <;> simp [Future.settledAs, past]

theorem isPending_iff (found : (w.future? f).map (·.settled) = some settled) :
    w.isPending f = settled.isNone := by
  obtain ⟨x, there, rfl⟩ := Option.map_eq_some_iff.mp found
  simp [isPending, there]

/-- What is done with a concurrent descriptor settles its future unless that has settled. -/
theorem handle_settles (pristine : d.written = []) (concurrent : d.policy = .concurrent)
    (known : w.completion? c = some ⟨d, .first f⟩) (found : (w.future? f).map (·.settled) = some settled)
    (h : Handling d) : (w.handle c h).completion? c = some ⟨d, .first f⟩ ∧
      ((w.handle c h).future? f).map (·.settled) = some (settled.or h.settlement?) := by
  have place (method : String) : futureOf d f method = .ok f := by
    simp [futureOf, Descriptor.book_pristine pristine]
  cases h with
  | use u =>
    have uses := use_records pristine known u
    cases means : u.result? with
    | none =>
      rw [means] at uses
      obtain ⟨fault, unchanged⟩ := uses
      simp only [handle, unchanged, Handling.settlement?, means]
      exact ⟨known, by simpa using found⟩
    | some r =>
      rw [means] at uses
      have recorded : (w.use c u).2 = w.settle f (.value (.reported (.result r))) := by
        rw [show w.use c u = _ from uses]
        simp only [record, known, place]
      simp only [handle, recorded, Handling.settlement?, means]
      exact ⟨(completion?_settle f _).trans known, settle_keeps found _⟩
  | collect own =>
    rw [concurrent] at own
    cases own
  | fail e own =>
    have failed : w.failBody c e = if settled.isNone then w.failFuture f e else .ok w := by
      simp only [failBody, delegate, known, Descriptor.delegate_pristine pristine, failCompletion, place,
        isPending_iff found]
    simp only [handle, failed, failFuture, isPending_iff found, Handling.settlement?]
    cases settled with
    | some s => exact ⟨known, by simpa using found⟩
    | none =>
      by_cases stops : e.fault.nature = .stopIteration
      · simp only [stops]
        exact ⟨known, by simpa using found⟩
      · simp only [stops]
        exact ⟨(completion?_settle f _).trans known, settle_keeps found _⟩

/-- How everything that was done with a concurrent descriptor has settled its future. -/
theorem Handles.settles (handles : Handles c hs w w') (pristine : d.written = [])
    (concurrent : d.policy = .concurrent) (known : w.completion? c = some ⟨d, .first f⟩)
    (found : (w.future? f).map (·.settled) = some settled) :
    w'.completion? c = some ⟨d, .first f⟩ ∧
      (w'.future? f).map (·.settled) = some (settled.or (Handling.first? hs)) := by
  induction handles generalizing settled with
  | done => exact ⟨known, by simpa [Handling.first?] using found⟩
  | apart change later ih =>
    have own := congrArg (·.bind Completion.future?) known
    exact ih (change.descriptor.trans known) ((change.report f own).trans found)
  | @handled w w' h hs later ih =>
    obtain ⟨still, taken⟩ := handle_settles pristine concurrent known found h
    obtain ⟨known', found'⟩ := ih still taken
    refine ⟨known', found'.trans ?_⟩
    rw [Option.or_assoc, Handling.first?, Handling.first?, List.findSome?_cons]
    cases h.settlement? <;> simp

end Concurrent

/-- A use of a descriptor that takes every result succeeds if it denotes one, and otherwise does nothing but fail. -/
theorem use_outcome {recorded : Recorded} (pristine : d.written = [])
    (known : w.completion? c = some ⟨d, recorded⟩) (taken : ∀ r, (w.record c (.result r)).1 = .ok ()) (u : d.Use) :
    (∀ r, u.result? = some r → (w.use c u).1 = .ok ()) ∧ (u.result? = none → ∃ f, w.use c u = (.error f, w)) := by
  have uses := use_records pristine known u
  refine ⟨fun r means => ?_, fun means => ?_⟩
  · rw [means] at uses
    rw [show w.use c u = _ from uses]
    exact taken r
  · rw [means] at uses
    exact uses

/-- However a new descriptor is used, and whatever else happens meanwhile: a use succeeds if it denotes a result,
and otherwise fails and changes nothing. Collecting a sequential descriptor gives the last result that was denoted
before it was first collected, if there was one. A concurrent descriptor is settled by the first result that was
denoted, unless it was failed before that. -/
theorem uses_give_last_or_first {start : World} (pristine : d.written = []) (kept : d.policy ≠ .plain)
    (made : w.newCompletion d = (c, start)) (handles : Handles c hs start w') :
    (∀ u : d.Use, (∀ r, u.result? = some r → (w'.use c u).1 = .ok ()) ∧
      (u.result? = none → ∃ f, w'.use c u = (.error f, w'))) ∧
    (d.policy = .sequential → (w'.collectReport c).1 = .ok (.result ((Handling.last? hs).getD {}))) ∧
    (d.policy = .concurrent → w'.waitedFor c = .ok (some w.futures.size) ∧
      w'.settlement? w.futures.size = Handling.first? hs) := by
  cases policy : d.policy with
  | plain => exact absurd policy kept
  | sequential =>
    have first : start.completion? c = some ⟨d, .latest ((none : Option Result).map .result) false⟩ := by
      simp only [newCompletion, policy, Prod.mk.injEq] at made
      obtain ⟨rfl, rfl⟩ := made
      simp [completion?, addCompletion]
    have known := handles.keeps pristine policy first
    have taken (r : Result) : (w'.record c (.result r)).1 = .ok () := (record_keeps pristine known _).1
    refine ⟨use_outcome pristine known taken, fun _ => ?_, fun other => Policy.noConfusion other⟩
    · rw [(collectReport_keeps pristine known).1]
      simp
  | concurrent =>
    have first : start.completion? c = some ⟨d, .first w.futures.size⟩ ∧
        (start.future? w.futures.size).map (·.settled) = some none := by
      simp only [newCompletion, policy, Prod.mk.injEq] at made
      obtain ⟨rfl, rfl⟩ := made
      constructor
      · simp [completion?, addCompletion, newFuture]
      · simp [future?, addCompletion, newFuture]
    obtain ⟨known, found⟩ := handles.settles pristine policy first.1 first.2
    have taken (r : Result) : (w'.record c (.result r)).1 = .ok () := by
      simp only [record, known, futureOf, Descriptor.book_pristine pristine]
    refine ⟨use_outcome pristine known taken, fun other => Policy.noConfusion other, fun _ => ⟨?_, ?_⟩⟩
    · simp only [waitedFor, delegate, known, Descriptor.delegate_pristine pristine, awaited,
        Descriptor.book_pristine pristine]
    · obtain ⟨x, there, settled⟩ := Option.map_eq_some_iff.mp found
      rw [settlement?_of_future? there, settled]
      rfl

/-- A sequential descriptor of a node with an output that is named like a method. -/
def shadowing : Descriptor where
  nodeName := .text "a"
  declared := [.atom (.text "ok"), .atom (.text "output")]
  defaultOutput := .text "ok"
  policy := .sequential

/-- What has the name of a method but is declared means the output, what is not declared means nothing, and what
comes after the collection comes too late. -/
theorem shadowing_collects_output :
    let hs : List (Handling shadowing) := [.use (.call [.text "ok", .int 1]),
      .use (.through "output" [.int 2] (by decide +kernel)), .use (.through "missing" [] (by decide +kernel)),
      .collect rfl, .use (.call [])]
    let start := (newCompletion {} shadowing).2
    ((hs.foldl (·.handle 0 ·) start).collectReport 0).1 = .ok (.result ⟨.text "output", .int 2, true⟩) := by
  intro hs start
  have handles : Handles 0 hs start (hs.foldl (·.handle 0 ·) start) :=
    .handled (.handled (.handled (.handled (.handled .done))))
  have made : newCompletion {} shadowing = (0, start) := rfl
  have declared : shadowing.isShortcut "output" = true := by decide +kernel
  have undeclared : shadowing.isShortcut "missing" = false := by decide +kernel
  have last : Handling.last? hs = some ⟨.text "output", .int 2, true⟩ := by
    simp [hs, Handling.last?, Handling.isCollect, Handling.result?, Descriptor.Use.result?, Descriptor.named,
      Value.text, declared, undeclared]
  rw [show Result.mk (.text "output") (.int 2) true = (Handling.last? hs).getD {} by rw [last]; rfl]
  exact (uses_give_last_or_first rfl (by decide) made handles).2.1 rfl

end World

end Conductor
