import BusSchema.Proofs.Transfer.Routing
import BusSchema.Proofs.Transfer.Session
import Mathlib.Data.List.DropRight

/-!
# Reports of unknown ids

A completed frame whose kind and id no rule has is dropped, and its id is reported unless that was
done since the catalogue was last replaced.  What a receiver remembers as reported is what it has
reported in this time (`count_period`).  So every such id is reported once, whatever came in and
in which order (`reports_once`).
-/

namespace BusSchema

theorem Rule.sends_iff {rule : Rule} {f : Frame} :
    rule.Sends f ↔ f.isService = rule.isService ∧ f.subjectId = rule.subjectId :=
  ⟨fun h => ⟨h.kind, h.subject⟩, fun h => ⟨h.1, h.2⟩⟩

namespace Catalogue

/-- There is a rule for the kind and the id of the frame. -/
def Knows (catalogue : Catalogue) (f : Frame) : Prop := ∃ rule ∈ catalogue.rules, rule.Sends f

theorem layoutOf?_eq_none_iff {catalogue : Catalogue} {f : Frame} :
    catalogue.layoutOf? f = none ↔ ¬catalogue.Knows f := by
  unfold layoutOf? Knows
  cases hkind : f.isService with
  | true =>
    simp [rules, Rule.sends_iff, hkind, service?, or_imp, forall_and, @eq_comm _ f.subjectId]
  | false =>
    simp [rules, Rule.sends_iff, hkind, message?, or_imp, forall_and, @eq_comm _ f.subjectId]

theorem read_of_not_knows [HalfConversion] {catalogue : Catalogue} {f : Frame}
    (h : ¬catalogue.Knows f) : catalogue.read f = .ok none :=
  read_of_none (layoutOf?_eq_none_iff.mpr h)

end Catalogue

namespace Notice

/-- The notice of an id without a rule. -/
def unknown (isService : Bool) (id : Nat) : Notice :=
  if isService then .unknownService id else .unknownMessage id

/-- The notice is that of an id without a rule. -/
def isUnknown : Notice → Bool
  | unknownMessage _ => true
  | unknownService _ => true
  | _ => false

theorem isUnknown_unknown (isService : Bool) (id : Nat) : (unknown isService id).isUnknown := by
  cases isService <;> rfl

theorem unknown_inj {isService other : Bool} {id otherId : Nat} :
    unknown isService id = unknown other otherId ↔ isService = other ∧ id = otherId := by
  cases isService <;> cases other <;> simp [unknown]

theorem count_unknown_eq_zero {notices : List Notice} (h : notices.any isUnknown = false)
    (isService : Bool) (id : Nat) : notices.count (unknown isService id) = 0 := by
  rw [List.count_eq_zero]
  intro hmem
  exact List.any_eq_false.mp h _ hmem (isUnknown_unknown isService id)

end Notice

namespace Reassembly

theorem any_isUnknown_begin (s : Reassembly) (f : Frame) :
    (s.begin f).notices.any Notice.isUnknown = false := by
  unfold begin
  dsimp only
  split
  · rfl
  · dsimp only
    split <;> rfl

theorem any_isUnknown_continueWith (s : Reassembly) (buffered f : Frame) :
    (s.continueWith buffered f).notices.any Notice.isUnknown = false := by
  unfold continueWith
  dsimp only
  split
  · rfl
  split
  · rfl
  split
  · rfl
  · split <;> rfl

theorem any_isUnknown_store (s : Reassembly) (f : Frame) :
    (s.store f).notices.any Notice.isUnknown = false := by
  unfold store
  split
  · rfl
  · exact any_isUnknown_begin s f
  · split
    · rfl
    · exact any_isUnknown_continueWith s _ f

end Reassembly

namespace Receiver

/-- The ids of a kind that the receiver remembers as reported. -/
def reported (r : Receiver) (isService : Bool) : List Nat :=
  if isService then r.unknownServices else r.unknownMessages

/-- Another catalogue takes the place of the current one. -/
def Input.reloads : Input → Bool
  | .reload _ => true
  | _ => false

/-- The steps since the catalogue was last replaced, or since the first one. -/
def period [HalfConversion] (r : Receiver) (inputs : List Input) : List Step :=
  (r.steps inputs).rtakeWhile fun step => !step.input.reloads

/-- The notices of several steps. -/
def noticesOf [HalfConversion] (steps : List Step) : List Notice :=
  steps.flatMap fun step => step.outcome.notices

/-- The step completes a frame of a kind and an id for which there is no rule. -/
def Step.Misses (step : Step) (isService : Bool) (id : Nat) : Prop :=
  ∃ f, step.before.completedBy step.input = .ok (some f) ∧ f.isService = isService ∧
    f.subjectId = id ∧ ¬step.before.catalogue.Knows f

/-! ## Reading a completed frame -/

theorem reportUnknown_of_mem {r : Receiver} {f : Frame}
    (h : f.subjectId ∈ r.reported f.isService) : r.reportUnknown f = ⟨.ok none, r, []⟩ := by
  unfold reportUnknown
  cases hkind : f.isService with
  | true =>
    have hmem : f.subjectId ∈ r.unknownServices := by simpa [reported, hkind] using h
    rw [if_pos rfl, if_pos hmem]
  | false =>
    have hmem : f.subjectId ∈ r.unknownMessages := by simpa [reported, hkind] using h
    rw [if_neg Bool.false_ne_true, if_pos hmem]

theorem reportUnknown_of_notMem {r : Receiver} {f : Frame}
    (h : f.subjectId ∉ r.reported f.isService) :
    (r.reportUnknown f).notices = [.unknown f.isService f.subjectId] ∧
      ∀ isService, (r.reportUnknown f).state.reported isService =
        if f.isService = isService then f.subjectId :: r.reported isService
        else r.reported isService := by
  unfold reportUnknown
  cases hkind : f.isService with
  | true =>
    have hmem : f.subjectId ∉ r.unknownServices := by simpa [reported, hkind] using h
    rw [if_pos rfl, if_neg hmem]
    refine ⟨rfl, fun isService => ?_⟩
    cases isService <;> rfl
  | false =>
    have hmem : f.subjectId ∉ r.unknownMessages := by simpa [reported, hkind] using h
    rw [if_neg Bool.false_ne_true, if_neg hmem]
    refine ⟨rfl, fun isService => ?_⟩
    cases isService <;> rfl

section Conversion

variable [HalfConversion]

theorem complete_of_knows {r : Receiver} {f : Frame} (h : r.catalogue.Knows f) :
    (r.complete f).state = r ∧ (r.complete f).notices = [] := by
  unfold complete
  split
  · next hnone => exact absurd h (Catalogue.layoutOf?_eq_none_iff.mp hnone)
  · exact ⟨rfl, rfl⟩

theorem complete_of_not_knows {r : Receiver} {f : Frame} (h : ¬r.catalogue.Knows f) :
    r.complete f = r.reportUnknown f := by
  unfold complete
  rw [Catalogue.layoutOf?_eq_none_iff.mpr h]

/-- A completed frame is read whatever else is under way, and storing its last part says nothing. -/
theorem respond_of_completedBy {r : Receiver} (hr : r.reassembly.Tidy) {input : Input} {f : Frame}
    (h : r.completedBy input = .ok (some f)) :
    ∃ reader : Receiver, r.respond input = reader.complete f ∧ reader.catalogue = r.catalogue ∧
      reader.reported = r.reported := by
  cases input with
  | receive d =>
    obtain ⟨arrived, hdecode, hstored⟩ := bind_eq_ok_iff.mp h
    have hnotices : (r.reassembly.store arrived).notices = [] := by
      rcases Reassembly.completed_of_store hr hstored with ⟨-, -, hstore⟩ | ⟨-, -, hstore⟩ <;>
        rw [hstore]
    refine ⟨{ r with reassembly := (r.reassembly.store arrived).state }, ?_, rfl, rfl⟩
    rw [respond, deliver_of_ok hdecode, accept]
    simp only [hstored, hnotices, List.nil_append]
  | complete completed =>
    cases h
    exact ⟨r, rfl, rfl, rfl⟩
  | reload catalogue => cases h

/-- An input that completes no frame leaves the memory alone, and says nothing of unknown ids. -/
theorem respond_of_not_completedBy {r : Receiver} {input : Input}
    (hkeeps : input.reloads = false) (h : ∀ f, r.completedBy input ≠ .ok (some f)) :
    (r.respond input).state.reported = r.reported ∧
      (r.respond input).notices.any Notice.isUnknown = false := by
  cases input with
  | receive d =>
    rw [respond]
    cases hdecode : Frame.decode d.identifier d.bytes d.timestamp with
    | error e =>
      rw [deliver_of_error hdecode]
      exact ⟨rfl, rfl⟩
    | ok f =>
      rw [deliver_of_ok hdecode, accept]
      have hquiet := Reassembly.any_isUnknown_store r.reassembly f
      cases hstored : (r.reassembly.store f).result with
      | error e => exact ⟨rfl, hquiet⟩
      | ok completed =>
        cases completed with
        | none => exact ⟨rfl, hquiet⟩
        | some g => exact absurd (bind_eq_ok_iff.mpr ⟨f, hdecode, hstored⟩) (h g)
  | complete f => exact absurd rfl (h f)
  | reload catalogue => cases hkeeps

/-! ## One step -/

/-- What a receiver remembers after a step, and what the step reports, for one kind and id. -/
structure Step.Accounts (step : Step) (isService : Bool) (id : Nat) : Prop where
  memory : id ∈ step.outcome.state.reported isService ↔
    id ∈ step.before.reported isService ∨ step.Misses isService id
  reports : (if id ∈ step.before.reported isService then 1 else 0) +
      step.outcome.notices.count (.unknown isService id) =
    if id ∈ step.outcome.state.reported isService then 1 else 0

section Step

variable {step : Step} {isService : Bool} {id : Nat}

/-- A step that misses nothing and says nothing of unknown ids leaves the memory alone. -/
theorem Step.accounts_of_quiet (hmisses : ¬step.Misses isService id)
    (hmemory : step.outcome.state.reported = step.before.reported)
    (hnotices : step.outcome.notices.any Notice.isUnknown = false) :
    step.Accounts isService id where
  memory := by rw [hmemory, or_iff_left hmisses]
  reports := by rw [hmemory, Notice.count_unknown_eq_zero hnotices, Nat.add_zero]

theorem Step.accounts_of_completed (hbefore : step.before.reassembly.Tidy) {f : Frame}
    (h : step.before.completedBy step.input = .ok (some f)) : step.Accounts isService id := by
  obtain ⟨reader, hrespond, hcatalogue, hmemory⟩ := respond_of_completedBy hbefore h
  have houtcome : step.outcome = reader.complete f := hrespond
  have hmisses : step.Misses isService id ↔
      (f.isService = isService ∧ f.subjectId = id) ∧ ¬reader.catalogue.Knows f := by
    simp [Misses, h, hcatalogue, and_assoc]
  by_cases hknows : reader.catalogue.Knows f
  · obtain ⟨hstate, hnotices⟩ := complete_of_knows hknows
    refine accounts_of_quiet (fun hmiss => (hmisses.mp hmiss).2 hknows) ?_ ?_
    · rw [houtcome, hstate, hmemory]
    · rw [houtcome, hnotices, List.any_nil]
  have hmisses : step.Misses isService id ↔ f.isService = isService ∧ f.subjectId = id := by
    rw [hmisses, and_iff_left hknows]
  rw [complete_of_not_knows hknows] at houtcome
  by_cases hreported : f.subjectId ∈ reader.reported f.isService
  · rw [reportUnknown_of_mem hreported] at houtcome
    refine ⟨?_, ?_⟩
    · rw [houtcome, hmisses, ← hmemory]
      refine (or_iff_left_of_imp ?_).symm
      rintro ⟨rfl, rfl⟩
      exact hreported
    · rw [houtcome, hmemory]
      rfl
  -- The id of the frame is new: it is reported and remembered, and no other one is.
  obtain ⟨hnotices, hstate⟩ := reportUnknown_of_notMem hreported
  by_cases hsame : f.isService = isService ∧ f.subjectId = id
  · obtain ⟨rfl, rfl⟩ := hsame
    refine ⟨?_, ?_⟩
    · simp [houtcome, hstate, hmisses]
    · simp [houtcome, hstate, hnotices, ← hmemory, hreported]
  · have hother : Notice.unknown f.isService f.subjectId ≠ .unknown isService id :=
      fun h => hsame (Notice.unknown_inj.mp h)
    have hkept : id ∈ (reader.reportUnknown f).state.reported isService ↔
        id ∈ step.before.reported isService := by
      rw [hstate, ← hmemory]
      split
      · next hkind => exact List.mem_cons.trans (or_iff_right fun hid => hsame ⟨hkind, hid.symm⟩)
      · rfl
    refine ⟨?_, ?_⟩
    · rw [houtcome, hkept, or_iff_left (hmisses.not.mpr hsame)]
    · simp only [houtcome, hnotices, hkept, List.count_singleton, beq_eq_false_iff_ne.mpr hother,
        Bool.false_eq_true, if_false, Nat.add_zero]

theorem Step.accounts (hbefore : step.before.reassembly.Tidy)
    (hkeeps : step.input.reloads = false) (isService : Bool) (id : Nat) :
    step.Accounts isService id := by
  by_cases hcompleted : ∃ f, step.before.completedBy step.input = .ok (some f)
  · obtain ⟨f, hf⟩ := hcompleted
    exact accounts_of_completed hbefore hf
  · obtain ⟨hmemory, hnotices⟩ :=
      respond_of_not_completedBy hkeeps (not_exists.mp hcompleted)
    refine accounts_of_quiet ?_ hmemory hnotices
    rintro ⟨f, hf, -⟩
    exact hcompleted ⟨f, hf⟩

end Step

/-! ## A whole period -/

theorem period_concat (r : Receiver) (inputs : List Input) (input : Input) :
    r.period (inputs ++ [input]) =
      if input.reloads then [] else r.period inputs ++ [⟨r.after inputs, input⟩] := by
  rw [period, steps_concat, List.rtakeWhile_concat]
  cases input.reloads <;> rfl

/-- What is remembered is what was missed in the period, and it was reported once. -/
theorem count_period (catalogue : Catalogue) (inputs : List Input) (isService : Bool) (id : Nat) :
    let r := ofCatalogue catalogue
    let remembered := (r.after inputs).reported isService
    (id ∈ remembered ↔ ∃ step ∈ r.period inputs, step.Misses isService id) ∧
      (noticesOf (r.period inputs)).count (.unknown isService id) =
        if id ∈ remembered then 1 else 0 := by
  intro r
  -- At its end a run goes on by one step, and starts over if that replaces the catalogue.
  induction inputs using List.reverseRecOn with
  | nil => cases isService <;> simp [r, after, period, steps, noticesOf, reported, ofCatalogue]
  | append_singleton inputs input ih =>
    obtain ⟨hmemory, hreports⟩ := ih
    rw [period_concat, after_concat]
    cases hreloads : input.reloads with
    | true =>
      cases input with
      | reload catalogue => cases isService <;> simp [respond, reload, noticesOf, reported]
      | receive d => cases hreloads
      | complete f => cases hreloads
    | false =>
      have htidy := tidy_after (tidy_ofCatalogue catalogue) inputs
      have hstep : Step.Accounts ⟨r.after inputs, input⟩ isService id :=
        Step.accounts htidy hreloads isService id
      rw [if_neg Bool.false_ne_true]
      refine ⟨?_, ?_⟩
      · refine hstep.memory.trans ?_
        simp only [hmemory, List.mem_append, List.mem_singleton, or_and_right, exists_or,
          exists_eq_left]
      · rw [noticesOf, List.flatMap_append, List.count_append, List.flatMap_singleton]
        exact (congrArg (· + _) hreports).trans hstep.reports

/--
Whatever a receiver is given: since its catalogue was last replaced, an id of a kind was reported
at most once, and it was reported exactly if a completed frame had this kind and id while there
was no rule for them.  At any time, nothing comes of a completed frame without a rule, and reading
one with a rule reports nothing.
-/
theorem reports_once (catalogue : Catalogue) (inputs : List Input) :
    let r := ofCatalogue catalogue
    (∀ isService id,
      let reports := (noticesOf (r.period inputs)).count (.unknown isService id)
      reports ≤ 1 ∧ (reports = 1 ↔ ∃ step ∈ r.period inputs, step.Misses isService id)) ∧
    ∀ step ∈ r.steps inputs, ∀ f, step.before.completedBy step.input = .ok (some f) →
      (¬step.before.catalogue.Knows f → step.outcome.result = .ok none) ∧
      (step.before.catalogue.Knows f → step.outcome.notices = []) := by
  intro r
  refine ⟨fun isService id => ?_, fun step hstep f hf => ⟨fun hunknown => ?_, fun hknows => ?_⟩⟩
  · obtain ⟨hmemory, hreports⟩ := count_period catalogue inputs isService id
    rw [← hmemory, hreports]
    split
    · next hremembered => exact ⟨Nat.le_refl 1, iff_of_true rfl hremembered⟩
    · next hnew => exact ⟨Nat.zero_le 1, iff_of_false Nat.zero_ne_one hnew⟩
  · rw [Step.outcome, result_of_completedBy hf, Catalogue.read_of_not_knows hunknown]
  · have htidy := tidy_of_mem_steps (tidy_ofCatalogue catalogue) hstep
    obtain ⟨reader, hrespond, hcatalogue, -⟩ := respond_of_completedBy htidy hf
    rw [Step.outcome, hrespond]
    exact (complete_of_knows (hcatalogue ▸ hknows)).2

end Conversion

open scoped HalfConversion in
/-- A transfer that starts while its id has a rule, and ends when no id has one any more. -/
theorem reports_once_started_before_reload :
    let message := Frame.message 7 1 0
    let service := Frame.service 7 1 2 true 0
    let start : Input := .receive ⟨message.identifier, #[5, 160], 0⟩
    let last : Input := .receive ⟨message.identifier, #[64], 0⟩
    let inputs := [.complete message, start, .reload {}, last, .complete service,
      .complete message, .complete service]
    let r := ofCatalogue { messages := [⟨7, "M", [Channel.scalar .unsigned 8 "M.a"]⟩] }
    let ending : Step := ⟨r.after [.complete message, start, .reload {}], last⟩
    r.catalogue.Knows message ∧ (r.respond (.complete message)).notices = [] ∧
      ending ∈ r.steps inputs ∧ ending.Misses false 7 ∧ ending.outcome.result = .ok none ∧
      (noticesOf (r.period inputs)).count (.unknown false 7) = 1 ∧
      (noticesOf (r.period inputs)).count (.unknown true 7) = 1 := by
  intro message service start last inputs r ending
  obtain ⟨hreports, hsteps⟩ := reports_once r.catalogue inputs
  have hknows : r.catalogue.Knows message := ⟨⟨false, 7, "M"⟩, List.mem_cons_self, rfl, rfl⟩
  have hunknown : ∀ f, ¬Catalogue.Knows {} f := by
    rintro f ⟨rule, hrule, -⟩
    exact List.not_mem_nil hrule
  have hfirst : (⟨r, .complete message⟩ : Step) ∈ r.steps inputs := List.mem_cons_self
  have hending : ending ∈ r.period inputs := List.mem_cons_self
  have hmember : ending ∈ r.steps inputs := (List.rtakeWhile_suffix _ _).subset hending
  let joined : Frame := { message with
    isStart := false, isEnd := false, toggle := false, role := .last, payload := #[5] }
  have hjoined : ending.before.completedBy ending.input = .ok (some joined) := by decide +kernel
  have hmisses : ending.Misses false 7 := ⟨joined, hjoined, rfl, rfl, hunknown joined⟩
  let other : Step := ⟨ending.outcome.state, .complete service⟩
  have hother : other ∈ r.period inputs := List.mem_cons_of_mem _ List.mem_cons_self
  have hcatalogue : other.before.catalogue = {} := by decide +kernel
  have hservice : other.Misses true 7 := ⟨service, rfl, rfl, rfl, hcatalogue ▸ hunknown service⟩
  exact ⟨hknows, (hsteps _ hfirst message rfl).2 hknows, hmember, hmisses,
    (hsteps ending hmember joined hjoined).1 (hunknown joined),
    (hreports false 7).2.mpr ⟨ending, hending, hmisses⟩,
    (hreports true 7).2.mpr ⟨other, hother, hservice⟩⟩

end Receiver

end BusSchema
