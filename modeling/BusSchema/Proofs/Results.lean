/-!
# Results of computations

What the success of a computation says about the parts that it is made of, for results that are
chained, mapped or collected by a fold; and where the error of one comes from.
-/

namespace BusSchema

variable {ε δ α β σ : Type}

theorem ok_bind (a : α) (f : α → Except ε β) : (Except.ok a >>= f) = f a := rfl

theorem bind_eq_ok_iff {e : Except ε α} {f : α → Except ε β} {b : β} :
    (e >>= f) = .ok b ↔ ∃ a, e = .ok a ∧ f a = .ok b := by
  cases e with
  | error e => simp [bind, Except.bind]
  | ok a => simp [bind, Except.bind]

theorem bind_eq_error_iff {e : Except ε α} {f : α → Except ε β} {fault : ε} :
    (e >>= f) = .error fault ↔ e = .error fault ∨ ∃ a, e = .ok a ∧ f a = .error fault := by
  cases e with
  | error e => simp [bind, Except.bind]
  | ok a => simp [bind, Except.bind]

theorem map_eq_ok_iff {e : Except ε α} {f : α → β} {b : β} :
    e.map f = .ok b ↔ ∃ a, e = .ok a ∧ f a = b := by
  cases e with
  | error e => simp [Except.map]
  | ok a => simp [Except.map]

theorem map_eq_error_iff {e : Except ε α} {f : α → β} {fault : ε} :
    e.map f = .error fault ↔ e = .error fault := by
  cases e with
  | error e => simp [Except.map]
  | ok a => simp [Except.map]

theorem mapError_eq_ok_iff {e : Except ε α} {f : ε → δ} {a : α} :
    e.mapError f = .ok a ↔ e = .ok a := by
  cases e with
  | error e =>
    constructor
    · intro h
      cases h
    · intro h
      cases h
  | ok b =>
    constructor
    · intro h
      cases h
      rfl
    · intro h
      cases h
      rfl

theorem toOption_eq_some_iff {e : Except ε α} {a : α} : e.toOption = some a ↔ e = .ok a := by
  cases e with
  | error e => simp [Except.toOption]
  | ok b => simp [Except.toOption]

/-- What holds at the start of a fold and is kept by each of its steps holds at the end. -/
theorem foldlM_induction {step : σ → α → Except ε σ} {inv : σ → Prop} {items : List α}
    (hstep : ∀ s, ∀ a ∈ items, ∀ next, inv s → step s a = .ok next → inv next) {start last : σ}
    (hstart : inv start) (h : items.foldlM step start = .ok last) : inv last := by
  induction items generalizing start with
  | nil =>
    rw [List.foldlM_nil] at h
    cases h
    exact hstart
  | cons a rest ih =>
    rw [List.foldlM_cons] at h
    obtain ⟨next, hfirst, hrest⟩ := bind_eq_ok_iff.mp h
    have hnext := hstep start a List.mem_cons_self next hstart hfirst
    exact ih (fun s b hb => hstep s b (List.mem_cons_of_mem _ hb)) hnext hrest

/-- A fold fails at the first item that its step refuses. -/
theorem foldlM_eq_error_iff {step : σ → α → Except ε σ} {items : List α} {start : σ} {fault : ε} :
    items.foldlM step start = .error fault ↔
      ∃ front a back s, items = front ++ a :: back ∧ front.foldlM step start = .ok s ∧
        step s a = .error fault := by
  constructor
  · intro h
    induction items generalizing start with
    | nil =>
      rw [List.foldlM_nil] at h
      cases h
    | cons a rest ih =>
      rw [List.foldlM_cons] at h
      rcases bind_eq_error_iff.mp h with hfirst | ⟨next, hfirst, hrest⟩
      · exact ⟨[], a, rest, start, rfl, rfl, hfirst⟩
      · obtain ⟨front, b, back, s, rfl, hfront, hfault⟩ := ih hrest
        refine ⟨a :: front, b, back, s, rfl, ?_, hfault⟩
        rw [List.foldlM_cons, hfirst]
        exact hfront
  · rintro ⟨front, a, back, s, rfl, hfront, hfault⟩
    rw [List.foldlM_append, hfront, ok_bind, List.foldlM_cons, hfault]
    rfl

section MapM

variable {f : α → Except ε β} {items : List α} {results : List β}

/-- A traversal succeeds with the results of its items. -/
theorem mapM_eq_ok_iff : items.mapM f = .ok results ↔ items.map f = results.map .ok := by
  induction items generalizing results with
  | nil =>
    rw [List.mapM_nil, List.map_nil, eq_comm (a := []), List.map_eq_nil_iff]
    exact ⟨fun h => (Except.ok.inj h).symm, fun h => congrArg Except.ok h.symm⟩
  | cons first rest ih =>
    rw [List.mapM_cons, List.map_cons, bind_eq_ok_iff]
    constructor
    · rintro ⟨b, hb, hrest⟩
      obtain ⟨others, hothers, hresults⟩ := bind_eq_ok_iff.mp hrest
      cases hresults
      rw [List.map_cons, hb, ih.mp hothers]
    · intro h
      obtain ⟨b, others, rfl, hb, hothers⟩ := List.map_eq_cons_iff.mp h.symm
      exact ⟨b, hb.symm, bind_eq_ok_iff.mpr ⟨others, ih.mpr hothers.symm, rfl⟩⟩

theorem exists_of_mapM_of_mem (h : items.mapM f = .ok results) {a : α} (ha : a ∈ items) :
    ∃ b ∈ results, f a = .ok b := by
  have hmem : f a ∈ results.map Except.ok := mapM_eq_ok_iff.mp h ▸ List.mem_map_of_mem ha
  obtain ⟨b, hb, hresult⟩ := List.mem_map.mp hmem
  exact ⟨b, hb, hresult.symm⟩

theorem exists_of_mapM_of_mem_result (h : items.mapM f = .ok results) {b : β}
    (hb : b ∈ results) : ∃ a ∈ items, f a = .ok b := by
  have hmem : .ok b ∈ items.map f := mapM_eq_ok_iff.mp h ▸ List.mem_map_of_mem hb
  exact List.mem_map.mp hmem

theorem exists_mapM_eq_ok (h : ∀ a ∈ items, ∃ b, f a = .ok b) :
    ∃ results, items.mapM f = .ok results := by
  induction items with
  | nil => exact ⟨[], rfl⟩
  | cons first rest ih =>
    obtain ⟨⟨b, hb⟩, hrest⟩ := List.forall_mem_cons.mp h
    obtain ⟨others, hothers⟩ := ih hrest
    refine ⟨b :: others, mapM_eq_ok_iff.mpr ?_⟩
    rw [List.map_cons, List.map_cons, hb, mapM_eq_ok_iff.mp hothers]

theorem exists_of_mapM_eq_error {e : ε} (h : items.mapM f = .error e) :
    ∃ a ∈ items, f a = .error e := by
  induction items with
  | nil => cases h
  | cons first rest ih =>
    rw [List.mapM_cons] at h
    rcases bind_eq_error_iff.mp h with hfirst | ⟨b, -, hbehind⟩
    · exact ⟨first, List.mem_cons_self, hfirst⟩
    rcases bind_eq_error_iff.mp hbehind with hrest | ⟨others, -, hlast⟩
    · obtain ⟨a, ha, herror⟩ := ih hrest
      exact ⟨a, List.mem_cons_of_mem _ ha, herror⟩
    · cases hlast

end MapM

end BusSchema
