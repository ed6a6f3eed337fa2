import Niuchacz.Psmgr.Life

namespace Niuchacz.Psmgr

open DoublyLinkedList DoublyLinkedList.Concurrent Lib.LinkedRing Lib.Locks Lib.Transition

/-!
# Do the counts of thread entries balance?

`i_psmgrExecRoutine` makes one reference and releases two.  As long as no thread has come to the
second `doublylinkedlistRelease` the counts balance, entries are freed only after they have been
released, and the first sweep that begins after that frees them.  The second release always
breaks this.

* `Life.balanced` — the counts in the states of such runs.
* `Covers` — a sweep that begins after the release does not pass an entry over.
* `thread_entries_balance` — the result, with what the second release does.
* `second_release_wraps` — a thread runs through, and its entry is never freed.
-/

variable {ι : Type} [DecidableEq ι] {s : State ι} {t u : ι} {p : Ptr} {o : Shared ι × Pc}

/-! ### Counts -/

/-- The count of an entry that a thread holds is one: nobody else holds it. -/
theorem Life.references_held (hl : Life s) (hp : (s.phase t).held = some p) :
    s.list.sh.heap.allocated p = true ∧ (s.list.sh.heap.references p).toNat = 1 := by
  have hmem := (hl.held t p).mpr hp
  have hentry := hl.inv.held _ hmem
  refine ⟨by rw [hl.inv.alloc, hentry], ?_⟩
  rw [hl.inv.refs p hentry]
  have hall : ∀ y ∈ s.list.sh.holders, (decide (y.2 = p) = true ↔ (y == (t, p)) = true) := by
    rintro ⟨v, x⟩ hy
    rw [decide_eq_true_eq, beq_iff_eq]
    constructor
    · rintro rfl
      rw [hl.inj v t x ((hl.held v x).mp hy) hp]
    · exact fun he => congrArg Prod.snd he
  rw [List.countP_congr hall]
  exact List.count_eq_one_of_mem hl.nodup hmem

omit [DecidableEq ι] in
/-- The count of a released entry is zero until it is freed. -/
theorem Life.references_released (hl : Life s) (hp : s.phase t = .released p)
    (hf : s.freed t = false) :
    s.list.sh.heap.allocated p = true ∧ s.list.sh.heap.references p = 0 := by
  obtain ⟨hno, hplace⟩ := hl.released t p hp hf
  have hentry : (s.list.sh.place p).isEntry = true := by
    rcases hplace with hplace | ⟨u, hown, -⟩
    · rw [hplace]; rfl
    · rw [hl.inv.own u p hown]; rfl
  exact ⟨by rw [hl.inv.alloc, hentry], (hl.inv.references_eq_zero hentry).mpr hno⟩

/-- The counts of the invariant are those of the property. -/
theorem Life.balanced (hl : Life s) : Balanced s := by
  intro t p n hp
  have hfreed : s.freed t = true → ∃ q, s.phase t = .released q := hl.freed t
  cases hph : s.phase t with
  | added q | deleted q =>
    rw [hph] at hp
    cases hp
    -- only a released entry is freed
    have hf : s.freed t = false := by
      rw [← Bool.not_eq_true]
      intro hf
      obtain ⟨x, hx⟩ := hfreed hf
      rw [hph] at hx
      cases hx
    rw [hf, if_neg Bool.false_ne_true]
    exact hl.references_held (by rw [hph]; rfl)
  | released q =>
    rw [hph] at hp
    cases hp
    by_cases hf : s.freed t = true
    · rw [if_pos hf]
    · rw [if_neg hf]
      rw [Bool.not_eq_true] at hf
      obtain ⟨ha, hz⟩ := hl.references_released hph hf
      exact ⟨ha, by rw [hz]; rfl⟩
  | finished q => exact absurd hph (hl.unfinished t q)
  | _ => rw [hph] at hp; cases hp

/-! ### Sweeps -/

/-- The entries that a sweep has still to free. -/
def due : Pc → Option (List Ptr)
  | .sweepStart d | .sweepTest d _ | .sweepLoad d _ | .sweepNext d _ | .sweepSave d _
  | .sweepUnlink d _ _ _ | .sweepFree d _ _ | .sweepUnlock d => some d
  | _ => none

/-- The sweep of `u` gets to the entry `p` of `t`, unless the entry has been freed already. -/
def Covers (s : State ι) (u t : ι) (p : Ptr) : Prop :=
  s.list.pc u = .sweepLock ∨ (∃ d, due (s.list.pc u) = some d ∧ p ∈ d) ∨ s.freed t = true

omit [DecidableEq ι] in
/-- A sweep goes on until everything due has been freed. -/
theorem Life.covers_go (hl : Life s) (hp : s.phase t = .released p) (hc : Covers s u t p)
    (h : stepGo s.list.sh u (s.list.pc u) = some o) :
    (∃ d, due o.2 = some d ∧ p ∈ d) ∨ s.freedBy (s.list.pc u) t = true := by
  by_cases hf : s.freed t = true
  · exact Or.inr (State.freedBy_of_freed hf)
  rcases hc with hpc | ⟨d, hd, hmem⟩ | hc
  · -- the sweep begins: a released entry is on the deleted ring, with count zero
    rw [Bool.not_eq_true] at hf
    rw [hpc] at h
    obtain ⟨hlock, rfl⟩ := lockThen_eq_some_iff.mp h
    obtain ⟨-, hplace⟩ := hl.released t p hp hf
    have hring : p ∈ s.list.sh.ring .deleted := by
      rcases hplace with hplace | ⟨v, -, hh⟩
      · exact (hl.inv.mem .deleted p).mpr hplace
      · rw [(hl.inv.excl .deleted v).mpr hh] at hlock
        cases hlock
    refine Or.inl ⟨_, rfl, List.mem_filter.mpr ⟨hring, ?_⟩⟩
    simpa using (hl.references_released hp hf).2
  · have hk := hl.inv.knows u
    cases hpc : s.list.pc u with
    | sweepStart d' | sweepNext d' x | sweepSave d' x =>
      rw [hpc] at h hd
      cases h
      exact Or.inl ⟨d, hd, hmem⟩
    | sweepTest d' x =>
      rw [hpc] at h hd
      simp only [stepGo] at h
      split at h
      · cases h
        exact Or.inl ⟨d, hd, hmem⟩
      · cases h
        refine Or.inl ⟨d, ?_, hmem⟩
        show due (if _ then _ else _) = _
        split <;> exact hd
    | sweepLoad d' x | sweepUnlink d' x pnext n =>
      rw [hpc] at h hd
      cases h
      refine Or.inl ⟨d, ?_, hmem⟩
      show due (if _ then _ else _) = _
      split <;> exact hd
    -- the entry itself is freed, or another one
    | sweepFree d' x pnext =>
      rw [hpc] at h hd
      cases h
      cases hd
      by_cases hpx : p = x
      · right
        simp [State.freedBy, hp, Phase.entry, hpx]
      · exact Or.inl ⟨_, rfl, List.mem_filter.mpr ⟨hmem, by simpa using hpx⟩⟩
    | sweepUnlock d' =>
      rw [hpc] at hd hk
      cases hd
      -- a sweep that gives back the lock has nothing left
      rw [show d = [] from hk] at hmem
      cases hmem
    | _ => rw [hpc] at hd; cases hd
  · exact absurd hc hf

/-- A released entry stays released, and the sweep that covers it goes on covering it. -/
theorem covers_step {a : ι × Act} {s' : State ι} (hl : Life s) (ha : ¬ SecondRelease s a)
    (hp : s.phase t = .released p) (hc : Covers s u t p) (hs : step s a = some s') :
    s'.phase t = .released p ∧ Covers s' u t p := by
  obtain ⟨v, a⟩ := a
  -- a call is made by a thread that is outside of the list, so not by the sweep
  have hcall : ∀ {c φ}, s.phase v ≠ .released p ∨ φ = .released p → s.call v c φ = some s' →
      s'.phase t = .released p ∧ Covers s' u t p := by
    intro c φ hv h
    obtain ⟨hidle, o, ho, rfl⟩ := call_eq h
    have hother : u ≠ v → (s.list.apply v o).pc u = s.list.pc u :=
      fun hu => Function.update_of_ne hu _ _
    refine ⟨?_, ?_⟩
    · show Function.update s.phase v φ t = .released p
      by_cases htv : t = v
      · subst htv
        rw [Function.update_self]
        rcases hv with hv | hv
        · exact absurd hp hv
        · exact hv
      · rw [Function.update_of_ne htv, hp]
    · by_cases huv : u = v
      · subst huv
        rcases hc with hc | ⟨d, hd, -⟩ | hc
        · rw [hidle] at hc
          cases hc
        · rw [hidle] at hd
          cases hd
        · exact Or.inr (Or.inr hc)
      · show (s.list.apply v o).pc u = _ ∨ (∃ d, due ((s.list.apply v o).pc u) = _ ∧ _) ∨ _
        rw [hother huv]
        exact hc
  have hnot : ∀ {φ : Phase}, s.phase v = φ → (∀ q, φ ≠ .released q) → s.phase v ≠ .released p := by
    rintro φ rfl hφ
    exact hφ p
  cases a with
  | go =>
    obtain ⟨list, hlist, rfl⟩ := Option.map_eq_some_iff.mp hs
    obtain ⟨o, ho, rfl⟩ := Option.map_eq_some_iff.mp hlist
    refine ⟨hp, ?_⟩
    show (s.list.apply v o).pc u = _ ∨ (∃ d, due ((s.list.apply v o).pc u) = _ ∧ _) ∨
      s.freedBy (s.list.pc v) t = true
    by_cases huv : u = v
    · subst huv
      rw [show (s.list.apply u o).pc u = o.2 from Function.update_self _ _ _]
      exact Or.inr (hl.covers_go hp hc ho)
    · rw [show (s.list.apply v o).pc u = s.list.pc u from Function.update_of_ne huv _ _]
      rcases hc with hc | hc | hc
      · exact Or.inl hc
      · exact Or.inr (Or.inl hc)
      · exact Or.inr (Or.inr (State.freedBy_of_freed hc))
  | add key data mem =>
    simp only [step] at hs
    split at hs
    · rename_i hphase
      exact hcall (Or.inl (hnot hphase (by simp))) hs
    · cases hs
  | next =>
    simp only [step] at hs
    split at hs
    · rename_i q hphase
      exact hcall (Or.inl (hnot hphase (by simp))) hs
    · rename_i q hphase
      exact hcall (Or.inl (hnot hphase (by simp))) hs
    · rename_i q hphase
      exact absurd ⟨rfl, q, hphase⟩ ha
    · cases hs
  | psmgrIdle =>
    simp only [step] at hs
    split at hs
    · rename_i hphase
      exact hcall (Or.inl (hnot hphase (by simp))) hs
    · cases hs

/-! ### The result -/

/-- A sweep that begins after the release of an entry and has returned has freed it, if no other
    sweep has. -/
theorem Life.freed_of_sweep (hl : Life s) (hp : s.phase t = .released p)
    (hu : s.list.pc u = .sweepLock) {hist : List (State ι × (ι × Act))} {s' : State ι}
    (hr : Run step s hist s') (hok : ∀ x ∈ hist, ¬ SecondRelease x.1 x.2)
    (hu' : s'.list.pc u = .idle) : s'.freed t = true := by
  have hc : Life s' ∧ s'.phase t = .released p ∧ Covers s' u t p :=
    hr.invariant (fun s a => ¬ SecondRelease s a)
      (fun s => Life s ∧ s.phase t = .released p ∧ Covers s u t p) ⟨hl, hp, Or.inl hu⟩
      (fun _ _ _ hi ha hs => ⟨life_step hi.1 ha hs, covers_step hi.1 ha hi.2.1 hi.2.2 hs⟩) hok
  rcases hc.2.2 with hc | ⟨d, hd, -⟩ | hc
  · rw [hu'] at hc
    cases hc
  · rw [hu'] at hd
    cases hd
  · exact hc

/-- The second release takes a count of zero below zero. -/
theorem Life.second_release (hl : Life s) (hp : s.phase t = .released p) (hf : s.freed t = false)
    {s' : State ι} (hs : step s (t, .next) = some s') :
    (s'.list.sh.heap.references p).toNat = 2 ^ 32 - 1 ∧ ¬ Balanced s' := by
  obtain ⟨-, hz⟩ := hl.references_released hp hf
  simp only [step, hp] at hs
  obtain ⟨hidle, o, ho, rfl⟩ := call_eq hs
  cases ho
  have hrefs : ((s.list.sh.heap.setReferences p (s.list.sh.heap.references p - 1)).references
      p).toNat = 2 ^ 32 - 1 := by
    simp only [Heap.setReferences, Function.update_self, hz]
    rfl
  refine ⟨hrefs, ?_⟩
  intro hb
  have h := hb t p 0 (by simp [Phase.owed])
  rw [if_neg (by rw [hf]; exact Bool.false_ne_true)] at h
  exact absurd (hrefs.symm.trans h.2) (by decide)

/-- **Thread entries.**  After every run without a second release the counts balance, and a sweep
    that begins now frees all entries that have been released by the time it returns.  The next
    second release breaks the balance, unless it is made on an entry that has been freed. -/
theorem thread_entries_balance (h : Heap) (plist : Ptr) (reaper : ι → Bool)
    (hist : List (State ι × (ι × Act))) (s : State ι)
    (hr : Run step (start ι h plist reaper) hist s)
    (hok : ∀ x ∈ hist, ¬ SecondRelease x.1 x.2) :
    Balanced s ∧
    (∀ hist' s', Run step s hist' s' → (∀ x ∈ hist', ¬ SecondRelease x.1 x.2) →
      ∀ t u p, s.phase t = .released p → s.list.pc u = .sweepLock → s'.list.pc u = .idle →
        s'.freed t = true) ∧
    ∀ t p s', s.phase t = .released p → step s (t, .next) = some s' →
      s.freed t = true ∨
        ((s'.list.sh.heap.references p).toNat = 2 ^ 32 - 1 ∧ ¬ Balanced s') := by
  have hl := life_run hr hok
  refine ⟨hl.balanced, ?_, ?_⟩
  · intro hist' s' hr' hok' t u p hp hu hu'
    exact hl.freed_of_sweep hp hu hr' hok' hu'
  · intro t p s' hp hs
    by_cases hf : s.freed t = true
    · exact Or.inl hf
    · rw [Bool.not_eq_true] at hf
      exact Or.inr (hl.second_release hp hf hs)

/-- `SecondRelease`, evaluated. -/
def secondReleaseCheck (s : State ι) (a : ι × Act) : Bool :=
  match a.2, s.phase a.1 with
  | .next, .released _ => true
  | _, _ => false

omit [DecidableEq ι] in
/-- The test decides that no step is a second release. -/
theorem not_secondRelease_of_check {a : ι × Act} (h : (!secondReleaseCheck s a) = true) :
    ¬ SecondRelease s a := by
  rintro ⟨hn, p, hp⟩
  simp [secondReleaseCheck, hn, hp] at h

/-- One thread adds, deletes and releases its entry, the other one sweeps. -/
theorem thread_entries_balance_one_thread :
    ∃ (hist : List (State Bool × (Bool × Act))) (s : State Bool)
      (hist' : List (State Bool × (Bool × Act))) (s' : State Bool),
      Run step (start Bool Heap.zero 100 id) hist s ∧ Run step s hist' s' ∧
      s.phase false = .released 200 ∧ Balanced s ∧ s'.freed false = true := by
  -- the whole run, evaluated
  have hplay : ((play step (fun s a => !secondReleaseCheck s a) (start Bool Heap.zero 100 id)
      ((false, .add 7 [] (some 200)) :: List.replicate 6 (false, .go) ++
        (false, .next) :: List.replicate 14 (false, .go) ++
        [(false, .next), (true, .psmgrIdle)])).any fun s =>
          decide (s.phase false = .released 200) && decide (s.list.pc true = .sweepLock) &&
          (play step (fun s a => !secondReleaseCheck s a) s (List.replicate 12 (true, .go))).any
            fun s' => decide (s'.list.pc true = .idle)) = true := by
    decide +kernel
  obtain ⟨s, hs, hplay⟩ := (Option.any_eq_true _ _).mp hplay
  rw [Bool.and_eq_true, Bool.and_eq_true, decide_eq_true_eq, decide_eq_true_eq] at hplay
  obtain ⟨⟨hphase, hlock⟩, hplay⟩ := hplay
  obtain ⟨s', hs', hidle⟩ := (Option.any_eq_true _ _).mp hplay
  obtain ⟨hist, hr, hok⟩ := run_of_play hs
  obtain ⟨hist', hr', hok'⟩ := run_of_play hs'
  have hbal := thread_entries_balance Heap.zero 100 id hist s hr
    (fun x hx => not_secondRelease_of_check (hok x hx))
  exact ⟨hist, s, hist', s', hr, hr', hphase, hbal.1,
    hbal.2.1 hist' s' hr' (fun x hx => not_secondRelease_of_check (hok' x hx)) false true 200
      hphase hlock (of_decide_eq_true hidle)⟩

/-- **The routine as it is.**  One thread runs through `i_psmgrExecRoutine`; its count has wrapped
    around, and a sweep after that does not free its entry. -/
theorem second_release_wraps :
    ∃ (hist : List (State Bool × (Bool × Act))) (s : State Bool),
      Run step (start Bool Heap.zero 100 id) hist s ∧ s.phase false = .finished 200 ∧
      s.list.pc true = .sweepUnlock [] ∧ s.freed false = false ∧
      s.list.sh.heap.references 200 = 4294967295 ∧ ¬ Balanced s := by
  -- one thread runs to its end, and `psmgrIdle` sweeps the list then
  have hplay : ((play step (fun _ _ => true) (start Bool Heap.zero 100 id)
      ((false, .add 7 [] (some 200)) :: List.replicate 6 (false, .go) ++
        (false, .next) :: List.replicate 14 (false, .go) ++
        [(false, .next), (false, .next), (true, .psmgrIdle)] ++ List.replicate 6 (true, .go))).any
      fun s => decide (s.phase false = .finished 200) &&
        decide (s.list.pc true = .sweepUnlock []) && !s.freed false &&
        decide (s.list.sh.heap.references 200 = 4294967295)) = true := by
    decide +kernel
  obtain ⟨hist, s, hr, -, hs⟩ := exists_run_of_play step _ _ _ _ hplay
  simp only [Bool.and_eq_true, decide_eq_true_eq, Bool.not_eq_true'] at hs
  obtain ⟨⟨⟨hphase, hpc⟩, hf⟩, hrefs⟩ := hs
  refine ⟨hist, s, hr, hphase, hpc, hf, hrefs, ?_⟩
  intro hb
  have h := hb false 200 0 (by rw [hphase]; rfl)
  rw [if_neg (by rw [hf]; exact Bool.false_ne_true), hrefs] at h
  exact absurd h.2 (by decide)

end Niuchacz.Psmgr
