import BusSchema.Proofs.Payload.Stream

/-!
# Streams of bits

A writer and a reader walk over the same bytes in steps: a step puts down or takes up a value, or
passes over bits.  A reader that takes the steps of a writer finds the values that were written, and
all bits that belong to no value are clear (`BitReader.run_of_written`).

A reader refuses a step that asks for too much and stays where it is (`BitReader.step_eq`), so that
any later step is as good as if the refused one had not been tried.
-/

namespace BusSchema

open Bits

/-- A step on a stream of bits. -/
inductive StreamStep
  /-- A value of some width; a reader does not look at the value, but finds one. -/
  | value (width value : Nat)
  /-- Bits that are passed over. -/
  | skip (width : Nat)

/-- What a reader answers to a step. -/
inductive StreamAnswer
  | value (n : Nat)
  | passed
  /-- The step asks for more bits than there are, or for more than a value has. -/
  | refused
deriving DecidableEq

namespace StreamStep

/-- The number of bits of the step. -/
def width : StreamStep → Nat
  | value width _ => width
  | skip width => width

/-- A value has at most 64 bits, and any number of bits may be passed over. -/
def Bounded : StreamStep → Prop
  | value width _ => width ≤ maxValueWidth
  | skip _ => True

instance : (s : StreamStep) → Decidable s.Bounded
  | value width _ => inferInstanceAs (Decidable (width ≤ maxValueWidth))
  | skip _ => inferInstanceAs (Decidable True)

/-- The answer of a reader that follows a writer. -/
def answer : StreamStep → StreamAnswer
  | value width n => .value (n % 2 ^ width)
  | skip _ => .passed

end StreamStep

/-! ## Writing -/

namespace BitWriter

/-- Takes a step. -/
def step (w : BitWriter) : StreamStep → BitWriter
  | .value width value => w.write width value
  | .skip width => w.skip width

/-- Takes steps one after the other. -/
def run (w : BitWriter) (steps : List StreamStep) : BitWriter := steps.foldl step w

theorem offset_step (w : BitWriter) (s : StreamStep) :
    (w.step s).offset = w.offset + s.width := by
  cases s <;> rfl

theorem tight_step {w : BitWriter} (hw : w.Tight) {s : StreamStep} (hs : s.Bounded) :
    (w.step s).Tight := by
  cases s with
  | value width value => exact tight_write hw hs value
  | skip width => exact tight_skip hw width

theorem extends_step (w : BitWriter) (s : StreamStep) : w.Extends (w.step s) := by
  cases s with
  | value width value => exact extends_write w width value
  | skip width => exact extends_skip w width

theorem offset_run (w : BitWriter) (steps : List StreamStep) :
    (w.run steps).offset = w.offset + total (steps.map StreamStep.width) := by
  induction steps generalizing w with
  | nil => rfl
  | cons s rest ih =>
    have htotal : total ((s :: rest).map StreamStep.width) =
        s.width + total (rest.map StreamStep.width) := rfl
    rw [run, List.foldl_cons, ← run, ih, offset_step, htotal, Nat.add_assoc]

theorem tight_run {w : BitWriter} (hw : w.Tight) {steps : List StreamStep}
    (hsteps : ∀ s ∈ steps, s.Bounded) : (w.run steps).Tight := by
  induction steps generalizing w with
  | nil => exact hw
  | cons s rest ih =>
    obtain ⟨hs, hrest⟩ := List.forall_mem_cons.mp hsteps
    exact ih (tight_step hw hs) hrest

theorem extends_run (w : BitWriter) (steps : List StreamStep) : w.Extends (w.run steps) := by
  induction steps generalizing w with
  | nil => exact .refl w
  | cons s rest ih => exact (extends_step w s).trans (ih (w.step s))

theorem run_append (w : BitWriter) (front behind : List StreamStep) :
    w.run (front ++ behind) = (w.run front).run behind :=
  List.foldl_append

/-- Bits that a writer has passed over stay clear. -/
theorem bitAt_run_of_skip {w : BitWriter} (hw : w.Tight) {front : List StreamStep}
    (hfront : ∀ s ∈ front, s.Bounded) (behind : List StreamStep) {width i : Nat} (hi : i < width) :
    bitAt (w.run (front ++ .skip width :: behind)).bytes ((w.run front).offset + i) = false := by
  have hbits := (extends_run ((w.run front).skip width) behind).bits
    ((w.run front).offset + i) (Nat.add_lt_add_left hi _)
  have hrun : w.run (front ++ .skip width :: behind) = ((w.run front).skip width).run behind :=
    run_append w front (.skip width :: behind)
  rw [hrun, hbits, bytes_skip, bitAt_growTo]
  exact (tight_run hw hfront).clear _ (Nat.le_add_right _ _)

end BitWriter

/-! ## Reading -/

namespace BitReader

/-- Takes a step, or stays in place if the step is refused. -/
def step (r : BitReader) : StreamStep → StreamAnswer × BitReader
  | .value width _ =>
    match r.read? width with
    | some (n, next) => (.value n, next)
    | none => (.refused, r)
  | .skip width =>
    match r.skip? width with
    | some next => (.passed, next)
    | none => (.refused, r)

/-- Takes steps one after the other, whether they are refused or not. -/
def run (r : BitReader) : List StreamStep → List StreamAnswer × BitReader
  | [] => ([], r)
  | s :: rest => ((r.step s).1 :: ((r.step s).2.run rest).1, ((r.step s).2.run rest).2)

/-- What stands behind a reader's position, taken as a step asks for it. -/
def found (r : BitReader) : StreamStep → StreamAnswer
  | .value width _ => .value (gather (bitAt r.bytes) r.offset width)
  | .skip _ => .passed

/-- A step is taken if its bits are there and not too many for a value, and otherwise refused. -/
theorem step_eq {r : BitReader} (hr : r.offset ≤ 8 * r.bytes.size) (s : StreamStep) :
    r.step s =
      if s.Bounded ∧ s.width ≤ r.remaining then
        (r.found s, ⟨r.bytes, r.offset + s.width⟩)
      else (.refused, r) := by
  cases s with
  | value width value =>
    have hfits : width ≤ r.remaining ↔ r.offset + width ≤ 8 * r.bytes.size := by
      unfold remaining
      omega
    unfold step StreamStep.Bounded StreamStep.width read?
    simp only [read?_eq, hfits]
    by_cases htaken : width ≤ maxValueWidth ∧ r.offset + width ≤ 8 * r.bytes.size
    · simp only [if_pos htaken]
      rfl
    · simp only [if_neg htaken]
      rfl
  | skip width =>
    unfold step StreamStep.Bounded StreamStep.width skip?
    simp only [true_and]
    by_cases hfits : width ≤ r.remaining
    · rw [if_neg (Nat.not_lt.mpr hfits), if_pos hfits]
      rfl
    · rw [if_pos (Nat.lt_of_not_le hfits), if_neg hfits]

/-- A reader never leaves its bytes, whatever it is asked for. -/
theorem step_inside {r : BitReader} (hr : r.offset ≤ 8 * r.bytes.size) (s : StreamStep) :
    (r.step s).2.bytes = r.bytes ∧ (r.step s).2.offset ≤ 8 * r.bytes.size := by
  rw [step_eq hr]
  split
  · next htaken =>
    refine ⟨rfl, ?_⟩
    have hfits := htaken.2
    unfold remaining at hfits
    dsimp only
    omega
  · exact ⟨rfl, hr⟩

theorem run_inside {r : BitReader} (hr : r.offset ≤ 8 * r.bytes.size) (steps : List StreamStep) :
    (r.run steps).2.bytes = r.bytes ∧ (r.run steps).2.offset ≤ 8 * r.bytes.size := by
  induction steps generalizing r with
  | nil => exact ⟨rfl, hr⟩
  | cons s rest ih =>
    obtain ⟨hbytes, hoffset⟩ := step_inside hr s
    have hrest := ih (r := (r.step s).2) (by rw [hbytes]; exact hoffset)
    rwa [hbytes] at hrest

section Follow

variable {bytes : Bytes} {w : BitWriter}

/-- A reader at the position of a writer finds what the writer puts down next. -/
theorem step_of_agrees {s : StreamStep} (hs : s.Bounded) (h : (w.step s).Agrees bytes) :
    step ⟨bytes, w.offset⟩ s = (s.answer, ⟨bytes, (w.step s).offset⟩) := by
  have hsize := h.size
  rw [BitWriter.offset_step] at hsize
  have hinside : w.offset ≤ 8 * bytes.size := by omega
  have hfits : s.width ≤ remaining ⟨bytes, w.offset⟩ := by
    unfold remaining
    dsimp only
    omega
  rw [step_eq hinside, if_pos ⟨hs, hfits⟩, BitWriter.offset_step]
  have hfound : found ⟨bytes, w.offset⟩ s = s.answer := by
    cases s with
    | value width n =>
      have hgather := BitWriter.gather_of_agrees_write hs h
      rw [lowBits_eq_mod hs] at hgather
      exact congrArg StreamAnswer.value hgather
    | skip width => rfl
  rw [hfound]

/-- A reader that takes the steps of a writer finds what the writer put down. -/
theorem run_of_agrees {steps : List StreamStep} (hsteps : ∀ s ∈ steps, s.Bounded)
    (h : (w.run steps).Agrees bytes) :
    run ⟨bytes, w.offset⟩ steps =
      (steps.map StreamStep.answer, ⟨bytes, (w.run steps).offset⟩) := by
  induction steps generalizing w with
  | nil => rfl
  | cons s rest ih =>
    obtain ⟨hs, hrest⟩ := List.forall_mem_cons.mp hsteps
    -- What the writer did at this step is still there at the end.
    have hstep := step_of_agrees hs (h.of_extends (BitWriter.extends_run (w.step s) rest))
    have hrun := ih (w := w.step s) hrest h
    rw [run, hstep]
    dsimp only
    rw [hrun]
    rfl

end Follow

/--
A writer that has taken steps is at the sum of their widths and has the bytes for as many bits.  A
reader of these bytes, with anything behind them, that takes the same steps finds every value that
was written and comes to the same position.  All bits that were passed over or are left in the last
byte are clear.

A reader of any bytes takes a step exactly if there are enough bits left for it, and not too many
for a value; any other step leaves it where it is, so that it makes no difference to the steps that
follow.
-/
theorem run_of_written {steps : List StreamStep} (hsteps : ∀ s ∈ steps, s.Bounded)
    (extra : Bytes) :
    let w := BitWriter.run {} steps
    w.offset = total (steps.map StreamStep.width) ∧
      w.bytes.size = bytesFor w.offset ∧
      run ⟨w.bytes ++ extra, 0⟩ steps =
        (steps.map StreamStep.answer, ⟨w.bytes ++ extra, w.offset⟩) ∧
      (∀ front width behind, steps = front ++ .skip width :: behind → ∀ i < width,
        bitAt w.bytes (total (front.map StreamStep.width) + i) = false) ∧
      (∀ p, w.offset ≤ p → p < 8 * w.bytes.size → bitAt w.bytes p = false) ∧
      ∀ (bytes : Bytes) (tried : List StreamStep) (s : StreamStep),
        let r := (run ⟨bytes, 0⟩ tried).2
        r.bytes = bytes ∧ r.offset ≤ 8 * bytes.size ∧
          r.step s =
            if s.Bounded ∧ s.width ≤ r.remaining then (r.found s, ⟨bytes, r.offset + s.width⟩)
            else (.refused, r) := by
  intro w
  have htight : w.Tight := BitWriter.tight_run BitWriter.tight_empty hsteps
  have hoffset : ∀ taken : List StreamStep,
      (BitWriter.run {} taken).offset = total (taken.map StreamStep.width) := by
    intro taken
    rw [BitWriter.offset_run, Nat.zero_add]
  refine ⟨hoffset steps, htight.size, ?_, ?_, fun p hp _ => htight.clear p hp, ?_⟩
  · exact run_of_agrees (w := {}) hsteps (htight.agrees_append extra)
  · intro front width behind happend i hi
    have hfront : ∀ s ∈ front, s.Bounded := by
      intro s hs
      exact hsteps s (happend ▸ List.mem_append_left _ hs)
    have hw : w = BitWriter.run {} (front ++ .skip width :: behind) := by rw [← happend]
    rw [← hoffset front, hw]
    exact BitWriter.bitAt_run_of_skip BitWriter.tight_empty hfront behind hi
  · intro bytes tried s r
    obtain ⟨hbytes, hinside⟩ := run_inside (r := ⟨bytes, 0⟩) (Nat.zero_le _) tried
    refine ⟨hbytes, hinside, ?_⟩
    have hstep := step_eq (r := r) (by rw [hbytes]; exact hinside) s
    rwa [hbytes] at hstep

/-- Values with a gap between them; later a value that does not fit, and one that does. -/
theorem run_of_written_with_gap :
    let steps : List StreamStep := [.value 3 13, .skip 9, .value 7 300]
    let w := BitWriter.run {} steps
    w.bytes = #[0x05, 0xc0, 0x02] ∧
      (run ⟨w.bytes ++ #[0xff], 0⟩ steps).1 = [.value 5, .passed, .value 44] ∧
      step (run ⟨#[0x05, 0xc0], 0⟩ [.value 10 0, .value 7 0]).2 (.value 6 0) =
        (.value 48, ⟨#[0x05, 0xc0], 16⟩) := by
  intro steps w
  have hsteps : ∀ s ∈ steps, s.Bounded := by decide
  obtain ⟨-, -, hrun, -, -, htried⟩ := run_of_written hsteps #[0xff]
  obtain ⟨-, -, hstep⟩ := htried #[0x05, 0xc0] [.value 10 0, .value 7 0] (.value 6 0)
  refine ⟨by decide, congrArg Prod.fst hrun, hstep.trans ?_⟩
  exact if_pos (by decide)

end BitReader

end BusSchema
