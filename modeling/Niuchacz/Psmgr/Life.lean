import Niuchacz.Psmgr.Model

namespace Niuchacz.Psmgr

open DoublyLinkedList DoublyLinkedList.Concurrent Lib.LinkedRing Lib.Locks Lib.Transition

/-!
# The life of a thread entry

Where the entry of a thread is in each phase of `i_psmgrExecRoutine`, as long as no thread has
come to the second `doublylinkedlistRelease`.

* `inside`, `deleted_go`, `hands_go`, `past_go` — what a step inside a list function can do.
* `Life` — the invariant: the list's own (`Inv`), who holds which entry, and where the entries
  are that have been deleted or released.
* `Life.go`, `Life.call`, `life_step`, `life_run` — it is kept by all steps but second releases.
-/

/-! ### Inside which list function a thread is -/

inductive Inside where
  | add (p : Ptr)
  | del (p : Ptr)
  | find
  | sweep

def inside : Pc → Option Inside
  | .idle => none
  | .addLock p | .addLink p _ | .addUnlock p => some (.add p)
  | .findLock _ | .findStart _ | .findTest _ _ | .findUnlock _ => some .find
  | .delLock p | .delUnlink p _ | .delTest p | .delMark p | .delLockDeleted p | .delLink p _
  | .delUnlockDeleted p | .delUnlock p => some (.del p)
  | _ => some .sweep

/-- The list function that a thread can be inside of in a phase. -/
def Phase.inside : Phase → Option Inside
  | .reaper => some .sweep
  | .added p => some (.add p)
  | .deleted p => some (.del p)
  | _ => none

/-- The entry that the thread holds a reference to. -/
def Phase.held : Phase → Option Ptr
  | .added p | .deleted p => some p
  | _ => none

/-- A thread that deletes an entry has put it on the deleted ring. -/
def past : Pc → Bool
  | .idle | .delUnlockDeleted _ | .delUnlock _ => true
  | .delLink _ n => 3 ≤ n
  | _ => false

variable {ι : Type} {sh : Shared ι} {l : Concurrent.State ι} {s : State ι}
  {t u : ι} {p q : Ptr} {pc : Pc} {o : Shared ι × Pc}

/-- A step inside a function stays inside it or returns. -/
theorem inside_go (h : stepGo sh t pc = some o) : o.2 = .idle ∨ inside o.2 = inside pc := by
  cases pc <;> simp only [stepGo] at h
  case idle => cases h
  case addLock | findLock | delLock | delLockDeleted | sweepLock =>
    right
    rw [(lockThen_eq_some_iff.mp h).2]
    rfl
  case addUnlock | findUnlock | delUnlock | sweepUnlock =>
    cases h
    exact Or.inl rfl
  case addLink | delUnlink | delTest | delLink | sweepLoad | sweepUnlink =>
    cases h
    right
    -- both branches are in the same function
    show inside (if _ then _ else _) = _
    split <;> rfl
  case findStart | delMark | delUnlockDeleted | sweepStart | sweepNext | sweepSave | sweepFree =>
    cases h
    exact Or.inr rfl
  case findTest =>
    right
    split at h
    · cases h; rfl
    · split at h <;> cases h <;> rfl
  case sweepTest =>
    right
    split at h
    · cases h; rfl
    · cases h
      show inside (if _ then _ else _) = _
      split <;> rfl

/-- Only `doublylinkedlistFind` changes who holds references. -/
theorem holders_go (hf : inside pc ≠ some .find) (h : stepGo sh t pc = some o) :
    o.1.holders = sh.holders ∧ o.1.delCalled = sh.delCalled := by
  cases pc <;> simp only [stepGo] at h
  case findLock | findStart | findTest | findUnlock => exact absurd rfl hf
  case idle => cases h
  case addLock | delLock | delLockDeleted | sweepLock =>
    rw [(lockThen_eq_some_iff.mp h).2]
    exact ⟨rfl, rfl⟩
  case sweepTest =>
    split at h <;> cases h <;> exact ⟨rfl, rfl⟩
  all_goals
    cases h
    exact ⟨rfl, rfl⟩

/-! ### Where an entry can go in one step -/

/-- An entry leaves the deleted ring only into the hands of a sweep, and only if nobody holds
    it. -/
theorem deleted_go (hinv : Inv l) (h : stepGo l.sh u (l.pc u) = some o)
    (hp : l.sh.place p = .ring .deleted) :
    o.1.place p = .ring .deleted ∨
      (o.2.own = some p ∧ o.2.holds .deleted = true ∧ NoHolder l.sh p) := by
  have hown : ∀ x, (l.pc u).own = some x → x ≠ p := by
    rintro x hx rfl
    rw [hinv.own u x hx] at hp
    cases hp
  have hk := hinv.knows u
  have htarget : ∀ x, (l.pc u).target = some x → x ≠ p := by
    rintro x hx rfl
    rw [(hinv.target u x hx).1] at hp
    cases hp
  -- only the steps that write the links of `p` matter
  cases hpc : l.pc u <;> rw [hpc] at h hown hk htarget <;> simp only [stepGo] at h
  case idle => cases h
  case addLock | findLock | delLock | delLockDeleted | sweepLock =>
    rw [(lockThen_eq_some_iff.mp h).2]
    exact Or.inl hp
  case findTest =>
    left
    split at h
    · cases h; exact hp
    · split at h <;> cases h <;> exact hp
  case sweepTest =>
    split at h <;> cases h <;> exact Or.inl hp
  case addLink x n | delLink x n =>
    cases h
    refine Or.inl ((l.sh.place_link _ fun hn => ?_).trans hp)
    subst hn
    exact (hown x rfl).symm
  case delUnlink x n =>
    cases h
    refine Or.inl ((l.sh.place_unlink u _ fun hn => ?_).trans hp)
    subst hn
    exact (htarget x rfl).symm
  case sweepUnlink due x pnext n =>
    cases h
    by_cases hx : n = 0 ∧ p = x
    · -- the sweep takes off the ring what nobody holds
      obtain ⟨rfl, rfl⟩ := hx
      exact Or.inr ⟨rfl, rfl, hk.1⟩
    · exact Or.inl ((l.sh.place_unlink u _ fun hn he => hx ⟨hn, he⟩).trans hp)
  case sweepFree due x pnext =>
    cases h
    left
    simp only [Function.update_of_ne (Ne.symm (hown x rfl))]
    exact hp
  all_goals
    cases h
    exact Or.inl hp

/-- An entry in the hands of a thread that has locked the deleted ring stays there, goes onto the
    ring, or is freed. -/
theorem hands_go (h : stepGo sh u pc = some o) (hown : pc.own = some p)
    (hh : pc.holds .deleted = true) :
    o.1.place p = .ring .deleted ∨ (o.2.own = some p ∧ o.2.holds .deleted = true) ∨
      ∃ due pnext, pc = .sweepFree due p pnext := by
  cases pc <;> simp only [stepGo] at h
  -- an entry that is about to be linked is on the ring after the third write
  case delLink x n =>
    cases h
    by_cases hn : n ≤ 2
    · simp only [Pc.own, if_pos hn, Option.some.injEq] at hown
      subst hown
      by_cases h2 : n = 2
      · left
        simp [Shared.link, h2]
      · right
        left
        rw [if_pos (by omega)]
        exact ⟨by simp only [Pc.own]; rw [if_pos (by omega)], rfl⟩
    · simp only [Pc.own, if_neg hn] at hown
      cases hown
  case sweepUnlink due x pnext n =>
    cases h
    by_cases hn : n = 0
    · simp only [Pc.own, if_pos hn] at hown
      cases hown
    · simp only [Pc.own, if_neg hn, Option.some.injEq] at hown
      subst hown
      right
      left
      show (if n < 3 then _ else _ : Pc).own = _ ∧ (if n < 3 then _ else _ : Pc).holds _ = _
      split <;> exact ⟨rfl, rfl⟩
  case sweepFree due x pnext =>
    cases hown
    exact Or.inr (Or.inr ⟨due, pnext, rfl⟩)
  all_goals first | exact absurd hh Bool.false_ne_true | cases hown

/-- An entry that its holder has put onto the deleted ring, or puts there with this step. -/
theorem past_go (hinv : Inv l) (h : stepGo l.sh t (l.pc t) = some o)
    (hin : l.pc t = .idle ∨ inside (l.pc t) = some (.del p)) (hheld : (t, p) ∈ l.sh.holders)
    (hp : past (l.pc t) = true → l.sh.place p = .ring .deleted) (ho : past o.2 = true) :
    o.1.place p = .ring .deleted := by
  by_cases hpast : past (l.pc t) = true
  · rcases deleted_go hinv h (hp hpast) with h | ⟨-, -, hno⟩
    · exact h
    · exact absurd rfl (hno _ hheld)
  · have hpos : l.sh.heap.references p > 0 := by
      refine UInt32.pos_iff_ne_zero.mpr ?_
      rw [Ne, hinv.references_eq_zero (hinv.held _ hheld)]
      exact fun hno => hno _ hheld rfl
    have hin : inside (l.pc t) = some (.del p) := by
      rcases hin with hin | hin
      · rw [hin] at hpast
        exact absurd rfl hpast
      · exact hin
    cases hpc : l.pc t with
    | delLock x =>
      rw [hpc] at h
      rw [(lockThen_eq_some_iff.mp h).2] at ho
      cases ho
    | delUnlink x n =>
      rw [hpc] at h
      cases h
      exfalso
      revert ho
      show past (if n < 3 then _ else _) ≠ true
      split <;> exact Bool.false_ne_true
    | delTest x =>
      rw [hpc] at h hin
      cases hin
      simp only [stepGo, if_pos hpos] at h
      cases h
      cases ho
    | delMark x => rw [hpc] at h; cases h; cases ho
    | delLockDeleted x =>
      rw [hpc] at h
      rw [(lockThen_eq_some_iff.mp h).2] at ho
      simp [past] at ho
    | delLink x n =>
      rw [hpc] at h hin hpast
      cases hin
      cases h
      simp only [past, decide_eq_true_eq] at hpast
      -- the write that completes the insertion
      have hn : n = 2 := by
        rw [if_pos (by omega)] at ho
        simp only [past, decide_eq_true_eq] at ho
        omega
      simp [Shared.link, hn]
    | delUnlockDeleted x => rw [hpc] at hpast; exact absurd rfl hpast
    | delUnlock x => rw [hpc] at hpast; exact absurd rfl hpast
    | _ => rw [hpc] at hin; cases hin

/-! ### The invariant -/

structure Life (s : State ι) : Prop where
  inv : Inv s.list
  within : ∀ t, s.list.pc t = .idle ∨ inside (s.list.pc t) = (s.phase t).inside
  unfinished : ∀ t p, s.phase t ≠ .finished p
  held : ∀ t p, (t, p) ∈ s.list.sh.holders ↔ (s.phase t).held = some p
  nodup : s.list.sh.holders.Nodup
  inj : ∀ t u p, (s.phase t).held = some p → (s.phase u).held = some p → t = u
  fresh : ∀ t p, s.phase t = .added p → p ∉ s.list.sh.delCalled
  retired : ∀ t p, s.phase t = .deleted p → past (s.list.pc t) = true →
    s.list.sh.place p = .ring .deleted
  released : ∀ t p, s.phase t = .released p → s.freed t = false → NoHolder s.list.sh p ∧
    (s.list.sh.place p = .ring .deleted ∨
      ∃ u, (s.list.pc u).own = some p ∧ (s.list.pc u).holds .deleted = true)
  freed : ∀ t, s.freed t = true → ∃ p, s.phase t = .released p

/-- In the beginning there are no entries. -/
theorem life_start (h : Heap) (plist : Ptr) (reaper : ι → Bool) :
    Life (start ι h plist reaper) := by
  have hphase : ∀ t, (start ι h plist reaper).phase t = .reaper ∨
      (start ι h plist reaper).phase t = .begin := by
    intro t
    simp only [start]
    split
    · exact Or.inl rfl
    · exact Or.inr rfl
  -- no thread has added anything yet
  have hheld : ∀ t, ((start ι h plist reaper).phase t).held = none := by
    intro t
    rcases hphase t with ht | ht <;> rw [ht] <;> rfl
  constructor
  case inv => exact inv_start h plist
  case within => exact fun t => Or.inl rfl
  case unfinished => exact fun t p ht => by rcases hphase t with h | h <;> rw [ht] at h <;> cases h
  case held =>
    intro t p
    rw [hheld t]
    simp [start, Concurrent.start]
  case nodup => exact List.nodup_nil
  case inj => exact fun t u p ht => by rw [hheld t] at ht; cases ht
  case fresh => exact fun t p ht => by rcases hphase t with h | h <;> rw [ht] at h <;> cases h
  case retired => exact fun t p ht => by rcases hphase t with h | h <;> rw [ht] at h <;> cases h
  case released => exact fun t p ht => by rcases hphase t with h | h <;> rw [ht] at h <;> cases h
  case freed => exact fun t ht => by cases ht

theorem Life.not_find (hl : Life s) (t : ι) : inside (s.list.pc t) ≠ some .find := by
  rcases hl.within t with h | h
  · rw [h]
    simp [inside]
  · rw [h]
    cases s.phase t <;> simp [Phase.inside]

/-- Bookkeeping: an entry once freed stays freed, and it is freed by a sweep. -/
theorem State.freed_of_freedBy (h : s.freedBy pc t = true) :
    s.freed t = true ∨ ∃ due q pnext, pc = .sweepFree due q pnext ∧ (s.phase t).entry = some q := by
  unfold State.freedBy at h
  split at h
  · rename_i due q pnext
    rw [Bool.or_eq_true, decide_eq_true_eq] at h
    rcases h with h | h
    · exact Or.inl h
    · exact Or.inr ⟨due, q, pnext, rfl, h⟩
  · exact Or.inl h

theorem State.freedBy_of_freed (h : s.freed t = true) : s.freedBy pc t = true := by
  unfold State.freedBy
  split
  · rw [h, Bool.true_or]
  · exact h

variable [DecidableEq ι]

/-- **Step inside a list function.** -/
theorem Life.go (hl : Life s) (h : stepGo s.list.sh u (s.list.pc u) = some o) :
    Life { s with list := s.list.apply u o, freed := s.freedBy (s.list.pc u) } := by
  obtain ⟨hholders, hdel⟩ := holders_go (hl.not_find u) h
  have hother : ∀ v, v ≠ u → (s.list.apply u o).pc v = s.list.pc v :=
    fun v hv => Function.update_of_ne hv _ _
  have hself : (s.list.apply u o).pc u = o.2 := Function.update_self _ _ _
  have hnof : NoOverflow s.list (u, .go) := by
    intro key p hp
    exact absurd (by rw [hp]; rfl) (hl.not_find u)
  constructor
  case inv => exact inv_go hl.inv hnof h
  case within =>
    intro t
    by_cases ht : t = u
    · subst ht
      show (s.list.apply t o).pc t = .idle ∨ inside ((s.list.apply t o).pc t) = (s.phase t).inside
      rw [hself]
      rcases inside_go h with hi | hi
      · exact Or.inl hi
      · rcases hl.within t with hw | hw
        · rw [hw] at h
          cases h
        · exact Or.inr (hi.trans hw)
    · show (s.list.apply u o).pc t = .idle ∨ inside ((s.list.apply u o).pc t) = (s.phase t).inside
      rw [hother t ht]
      exact hl.within t
  case unfinished => exact hl.unfinished
  case held =>
    intro t p
    show (t, p) ∈ o.1.holders ↔ _
    rw [hholders]
    exact hl.held t p
  case nodup =>
    show o.1.holders.Nodup
    rw [hholders]
    exact hl.nodup
  case inj => exact hl.inj
  case fresh =>
    intro t p ht
    show p ∉ o.1.delCalled
    rw [hdel]
    exact hl.fresh t p ht
  case retired =>
    intro t p ht hpast
    show o.1.place p = .ring .deleted
    have hheld : (t, p) ∈ s.list.sh.holders := (hl.held t p).mpr (by rw [ht]; rfl)
    by_cases htu : t = u
    · -- the thread itself comes past its deletion, or was past it already
      subst htu
      have hin := hl.within t
      rw [ht] at hin
      refine past_go hl.inv h hin hheld (hl.retired t p ht) ?_
      rw [← hself]
      exact hpast
    · have hpast' : past (s.list.pc t) = true := by rw [← hother t htu]; exact hpast
      rcases deleted_go hl.inv h (hl.retired t p ht hpast') with hp | ⟨-, -, hno⟩
      · exact hp
      · exact absurd rfl (hno _ hheld)
  case released =>
    intro t p ht hf
    have hphase : s.phase t = .released p := ht
    have hf : s.freedBy (s.list.pc u) t = false := hf
    have hf0 : s.freed t = false := by
      rw [← Bool.not_eq_true]
      intro hf1
      rw [State.freedBy_of_freed hf1] at hf
      cases hf
    obtain ⟨hno, hplace⟩ := hl.released t p hphase hf0
    refine ⟨?_, ?_⟩
    · show ∀ y ∈ o.1.holders, y.2 ≠ p
      rw [hholders]
      exact hno
    · show o.1.place p = .ring .deleted ∨ ∃ v, ((s.list.apply u o).pc v).own = some p ∧
        ((s.list.apply u o).pc v).holds .deleted = true
      rcases hplace with hp | ⟨v, hown, hh⟩
      · rcases deleted_go hl.inv h hp with hp | ⟨hown, hh, -⟩
        · exact Or.inl hp
        · exact Or.inr ⟨u, by rw [hself]; exact hown, by rw [hself]; exact hh⟩
      · by_cases hvu : v = u
        · subst hvu
          rcases hands_go h hown hh with hp | ⟨hown, hh⟩ | ⟨due, pnext, hpc⟩
          · exact Or.inl hp
          · exact Or.inr ⟨v, by rw [hself]; exact hown, by rw [hself]; exact hh⟩
          · -- the step that frees the entry
            have hf1 : s.freedBy (s.list.pc v) t = true := by
              rw [hpc]
              simp [State.freedBy, hphase, Phase.entry]
            rw [hf1] at hf
            cases hf
        · exact Or.inr ⟨v, by rw [hother v hvu]; exact hown, by rw [hother v hvu]; exact hh⟩
  case freed =>
    intro t hf
    rcases State.freed_of_freedBy hf with hf | ⟨due, q, pnext, hpc, hentry⟩
    · exact hl.freed t hf
    · -- what a sweep frees is held by nobody
      have hno : NoHolder s.list.sh q := by
        have hk := hl.inv.knows u
        rw [hpc] at hk
        exact hk.1
      have hnot : (s.phase t).held ≠ some q := by
        intro hh
        exact hno _ ((hl.held t q).mpr hh) rfl
      cases hph : s.phase t with
      | added x => rw [hph] at hentry hnot; exact absurd hentry hnot
      | deleted x => rw [hph] at hentry hnot; exact absurd hentry hnot
      | released x => exact ⟨x, rfl⟩
      | finished x => exact absurd hph (hl.unfinished t x)
      | _ => rw [hph] at hentry; cases hentry

/-! ### Calls -/

/-- A call is made by a thread that is in no list function. -/
theorem call_eq {c : Call} {φ : Phase} {s' : State ι} (h : s.call t c φ = some s') :
    s.list.pc t = .idle ∧ ∃ o, stepCall s.list.sh t c = some o ∧
      s' = { s with list := s.list.apply t o, phase := Function.update s.phase t φ } := by
  obtain ⟨list, hlist, rfl⟩ := Option.map_eq_some_iff.mp h
  obtain ⟨o, ho, rfl⟩ := Option.map_eq_some_iff.mp hlist
  simp only [outcome] at ho
  split at ho
  · rename_i hidle
    exact ⟨hidle, o, ho, rfl⟩
  · cases ho

/-- What a call that takes a thread to the phase `φ` does. -/
structure Calls (s : State ι) (t : ι) (o : Shared ι × Pc) (φ : Phase) : Prop where
  inv : Inv (s.list.apply t o)
  within : o.2 = .idle ∨ inside o.2 = φ.inside
  unfinished : ∀ p, φ ≠ .finished p
  mine : ∀ p, (t, p) ∈ o.1.holders ↔ φ.held = some p
  others : ∀ v p, v ≠ t → ((v, p) ∈ o.1.holders ↔ (v, p) ∈ s.list.sh.holders)
  nodup : o.1.holders.Nodup
  alone : ∀ p, φ.held = some p → ∀ v, v ≠ t → (v, p) ∉ s.list.sh.holders
  fresh : ∀ p, φ = .added p → p ∉ o.1.delCalled
  fresh' : ∀ v p, v ≠ t → s.phase v = .added p → p ∉ o.1.delCalled
  place : ∀ x, (s.list.sh.place x).isEntry = true → o.1.place x = s.list.sh.place x
  noHolder : ∀ x, (s.list.sh.place x).isEntry = true → NoHolder s.list.sh x → NoHolder o.1 x
  retired : ∀ p, φ = .deleted p → past o.2 = true → o.1.place p = .ring .deleted
  released : ∀ p, φ = .released p → NoHolder o.1 p ∧ o.1.place p = .ring .deleted
  freed : s.freed t = true → ∃ p, φ = .released p

/-- **Calls.** -/
theorem Life.call (hl : Life s) (hidle : s.list.pc t = .idle) {φ : Phase} (hc : Calls s t o φ) :
    Life { s with list := s.list.apply t o, phase := Function.update s.phase t φ } := by
  have hother : ∀ v, v ≠ t → (s.list.apply t o).pc v = s.list.pc v :=
    fun v hv => Function.update_of_ne hv _ _
  have hself : (s.list.apply t o).pc t = o.2 := Function.update_self _ _ _
  have hphase : ∀ v, v ≠ t → Function.update s.phase t φ v = s.phase v :=
    fun v hv => Function.update_of_ne hv _ _
  have hphase' : Function.update s.phase t φ t = φ := Function.update_self _ _ _
  constructor
  case inv => exact hc.inv
  case within =>
    intro v
    show (s.list.apply t o).pc v = .idle ∨
      inside ((s.list.apply t o).pc v) = (Function.update s.phase t φ v).inside
    by_cases hv : v = t
    · subst hv
      rw [hself, hphase']
      exact hc.within
    · rw [hother v hv, hphase v hv]
      exact hl.within v
  case unfinished =>
    exact (Function.forall_update_iff s.phase (fun _ φ => ∀ p, φ ≠ .finished p)).mpr
      ⟨hc.unfinished, fun v _ => hl.unfinished v⟩
  case held =>
    intro v p
    show (v, p) ∈ o.1.holders ↔ (Function.update s.phase t φ v).held = some p
    by_cases hv : v = t
    · subst hv
      rw [hphase']
      exact hc.mine p
    · rw [hphase v hv, hc.others v p hv]
      exact hl.held v p
  case nodup => exact hc.nodup
  case inj =>
    intro v w p hv hw
    have hv : (Function.update s.phase t φ v).held = some p := hv
    have hw : (Function.update s.phase t φ w).held = some p := hw
    by_cases hvt : v = t <;> by_cases hwt : w = t
    · rw [hvt, hwt]
    · rw [hvt, hphase'] at hv
      rw [hphase w hwt] at hw
      exact absurd ((hl.held w p).mpr hw) (hc.alone p hv w hwt)
    · rw [hphase v hvt] at hv
      rw [hwt, hphase'] at hw
      exact absurd ((hl.held v p).mpr hv) (hc.alone p hw v hvt)
    · rw [hphase v hvt] at hv
      rw [hphase w hwt] at hw
      exact hl.inj v w p hv hw
  case fresh =>
    refine (Function.forall_update_iff s.phase (fun _ φ => ∀ p, φ = .added p →
      p ∉ o.1.delCalled)).mpr ⟨hc.fresh, fun v hv p => hc.fresh' v p hv⟩
  case retired =>
    intro v p hv hpast
    have hv : Function.update s.phase t φ v = .deleted p := hv
    show o.1.place p = .ring .deleted
    by_cases hvt : v = t
    · subst hvt
      rw [hphase'] at hv
      exact hc.retired p hv (by rw [← hself]; exact hpast)
    · rw [hphase v hvt] at hv
      have hp := hl.retired v p hv (by rw [← hother v hvt]; exact hpast)
      rw [hc.place p (by rw [hp]; rfl), hp]
  case released =>
    intro v p hv hf
    have hv : Function.update s.phase t φ v = .released p := hv
    by_cases hvt : v = t
    · rw [hvt, hphase'] at hv
      obtain ⟨hno, hp⟩ := hc.released p hv
      exact ⟨hno, Or.inl hp⟩
    · rw [hphase v hvt] at hv
      obtain ⟨hno, hp⟩ := hl.released v p hv hf
      rcases hp with hp | ⟨w, hown, hh⟩
      · have hentry : (s.list.sh.place p).isEntry = true := by rw [hp]; rfl
        exact ⟨hc.noHolder p hentry hno, Or.inl ((hc.place p hentry).trans hp)⟩
      · have hentry : (s.list.sh.place p).isEntry = true := by rw [hl.inv.own w p hown]; rfl
        -- the sweep that has the entry is not the thread that makes the call
        have hwt : w ≠ t := by
          rintro rfl
          rw [hidle] at hh
          cases hh
        exact ⟨hc.noHolder p hentry hno,
          Or.inr ⟨w, by rw [hother w hwt]; exact hown, by rw [hother w hwt]; exact hh⟩⟩
  case freed =>
    exact (Function.forall_update_iff s.phase (fun v φ => s.freed v = true →
      ∃ p, φ = .released p)).mpr ⟨hc.freed, fun v _ => hl.freed v⟩

/-- A call that leaves the holders, the deletions and all places alone. -/
theorem Life.calls_quiet (hl : Life s) {pc : Pc} {φ : Phase}
    (hinv : Inv (s.list.apply t (s.list.sh, pc))) (hw : pc = .idle ∨ inside pc = φ.inside)
    (hphase : s.phase t = .begin ∨ s.phase t = .reaper) (hφ : φ = .reaper ∨ φ = .failed) :
    Calls s t (s.list.sh, pc) φ := by
  -- the thread holds nothing, neither before nor after the call
  have hheld : (s.phase t).held = none := by rcases hphase with h | h <;> rw [h] <;> rfl
  have hφheld : φ.held = none := by rcases hφ with rfl | rfl <;> rfl
  constructor
  case inv => exact hinv
  case within => exact hw
  case unfinished => rcases hφ with rfl | rfl <;> simp
  case mine =>
    intro p
    rw [hφheld, ← hheld]
    exact hl.held t p
  case others => exact fun v p _ => Iff.rfl
  case nodup => exact hl.nodup
  case alone => exact fun p hp => by rw [hφheld] at hp; cases hp
  case fresh => rcases hφ with rfl | rfl <;> simp
  case fresh' => exact fun v p _ hv => hl.fresh v p hv
  case place => exact fun x _ => rfl
  case noHolder => exact fun x _ h => h
  case retired => rcases hφ with rfl | rfl <;> simp
  case released => rcases hφ with rfl | rfl <;> simp
  case freed =>
    intro hf
    obtain ⟨p, hp⟩ := hl.freed t hf
    rcases hphase with h | h <;> rw [hp] at h <;> cases h

/-- `doublylinkedlistAdd`. -/
theorem Life.calls_add (hl : Life s) (hidle : s.list.pc t = .idle) (hphase : s.phase t = .begin)
    {key : UInt64} {data : List UInt8}
    (h : stepCall s.list.sh t (.add key data (some q)) = some o) : Calls s t o (.added q) := by
  have hinv := inv_call hl.inv hidle (.add key data (some q)) trivial h
  simp only [stepCall] at h
  split at h
  · cases h
  · rename_i hc
    simp only [Bool.or_eq_true, decide_eq_true_eq, not_or, Bool.not_eq_true] at hc
    -- the new address is not that of an entry
    have hne : ∀ x, (s.list.sh.place x).isEntry = true → x ≠ q := by
      rintro x hx rfl
      rw [← hl.inv.alloc x, hc.1.1] at hx
      cases hx
    have hnone : ∀ v x, (v, x) ∈ s.list.sh.holders → x ≠ q :=
      fun v x hx => hne x (hl.inv.held _ hx)
    cases h
    constructor
    case inv => exact hinv
    case within => exact Or.inr rfl
    case unfinished => exact fun p hp => by cases hp
    case mine =>
      intro p
      have hno : (t, p) ∉ s.list.sh.holders := by
        rw [hl.held t p, hphase]
        simp [Phase.held]
      show (t, p) ∈ (t, q) :: s.list.sh.holders ↔ some q = some p
      simp [hno, eq_comm]
    case others =>
      intro v p hv
      show (v, p) ∈ (t, q) :: s.list.sh.holders ↔ _
      simp [hv]
    case nodup => exact List.nodup_cons.mpr ⟨fun hm => hnone t q hm rfl, hl.nodup⟩
    case alone =>
      intro p hp v _ hm
      cases hp
      exact hnone v q hm rfl
    case fresh =>
      intro p hp hm
      cases hp
      simp at hm
    case fresh' =>
      intro v p _ hv hm
      exact hl.fresh v p hv (List.mem_of_mem_filter hm)
    case place => exact fun x hx => Function.update_of_ne (hne x hx) _ _
    case noHolder =>
      intro x hx hno y hy
      rcases List.mem_cons.mp hy with rfl | hy
      · exact fun he => hne x hx he.symm
      · exact hno y hy
    case retired => exact fun p hp => by cases hp
    case released => exact fun p hp => by cases hp
    case freed =>
      intro hf
      obtain ⟨p, hp⟩ := hl.freed t hf
      rw [hphase] at hp
      cases hp

/-- `doublylinkedlistDel`. -/
theorem Life.calls_del (hl : Life s) (hidle : s.list.pc t = .idle) (hphase : s.phase t = .added q)
    (h : stepCall s.list.sh t (.del q) = some o) : Calls s t o (.deleted q) := by
  have hheld : (t, q) ∈ s.list.sh.holders := (hl.held t q).mpr (by rw [hphase]; rfl)
  have hinv := inv_call hl.inv hidle (.del q) ⟨hheld, hl.fresh t q hphase⟩ h
  cases h
  constructor
  case inv => exact hinv
  case within => exact Or.inr rfl
  case unfinished => exact fun p hp => by cases hp
  case mine =>
    intro p
    have hiff := hl.held t p
    rw [hphase] at hiff
    exact hiff
  case others => exact fun v p _ => Iff.rfl
  case nodup => exact hl.nodup
  case alone =>
    intro p hp v hv hm
    cases hp
    -- two threads never hold the same entry
    exact hv (hl.inj v t q ((hl.held v q).mp hm) (by rw [hphase]; rfl))
  case fresh => exact fun p hp => by cases hp
  case fresh' =>
    intro v p hv hp hm
    rcases List.mem_cons.mp hm with rfl | hm
    · exact hv (hl.inj v t p (by rw [hp]; rfl) (by rw [hphase]; rfl))
    · exact hl.fresh v p hp hm
  case place => exact fun x _ => rfl
  case noHolder => exact fun x _ h => h
  case retired => exact fun p hp hpast => by cases hpast
  case released => exact fun p hp => by cases hp
  case freed =>
    intro hf
    obtain ⟨p, hp⟩ := hl.freed t hf
    rw [hphase] at hp
    cases hp

/-- The first `doublylinkedlistRelease`. -/
theorem Life.calls_release (hl : Life s) (hidle : s.list.pc t = .idle)
    (hphase : s.phase t = .deleted q) (h : stepCall s.list.sh t (.release q) = some o) :
    Calls s t o (.released q) := by
  have hheld : (t, q) ∈ s.list.sh.holders := (hl.held t q).mpr (by rw [hphase]; rfl)
  have hinv := inv_call hl.inv hidle (.release q) hheld h
  have hring : s.list.sh.place q = .ring .deleted := hl.retired t q hphase (by rw [hidle]; rfl)
  cases h
  constructor
  case inv => exact hinv
  case within => exact Or.inl rfl
  case unfinished => exact fun p hp => by cases hp
  case mine =>
    intro p
    show (t, p) ∈ s.list.sh.holders.erase (t, q) ↔ none = some p
    rw [hl.nodup.mem_erase_iff, hl.held t p, hphase]
    simp [Phase.held, eq_comm]
  case others =>
    intro v p hv
    show (v, p) ∈ s.list.sh.holders.erase (t, q) ↔ _
    rw [hl.nodup.mem_erase_iff]
    simp [hv]
  case nodup => exact hl.nodup.erase _
  case alone => exact fun p hp => by cases hp
  case fresh => exact fun p hp => by cases hp
  case fresh' => exact fun v p _ hv => hl.fresh v p hv
  case place => exact fun x _ => rfl
  case noHolder => exact fun x _ hno y hy => hno y (List.mem_of_mem_erase hy)
  case retired => exact fun p hp => by cases hp
  case released =>
    intro p hp
    cases hp
    refine ⟨?_, hring⟩
    rintro ⟨v, x⟩ hy rfl
    -- whoever held the entry besides would be the same thread
    obtain ⟨hne, hm⟩ := hl.nodup.mem_erase_iff.mp hy
    have hv := hl.inj v t x ((hl.held v x).mp hm) (by rw [hphase]; rfl)
    exact hne (by rw [hv])
  case freed => exact fun _ => ⟨q, rfl⟩

/-! ### Steps and runs -/

/-- **Step.** -/
theorem life_step {a : ι × Act} {s' : State ι} (hl : Life s) (ha : ¬ SecondRelease s a)
    (hs : step s a = some s') : Life s' := by
  obtain ⟨t, a⟩ := a
  cases a with
  | go =>
    obtain ⟨list, hlist, rfl⟩ := Option.map_eq_some_iff.mp hs
    obtain ⟨o, ho, rfl⟩ := Option.map_eq_some_iff.mp hlist
    exact hl.go ho
  | add key data mem =>
    simp only [step] at hs
    split at hs
    · rename_i hphase
      obtain ⟨hidle, o, ho, rfl⟩ := call_eq hs
      refine hl.call hidle ?_
      cases mem with
      | some q => exact hl.calls_add hidle hphase ho
      | none =>
        have hinv := inv_call hl.inv hidle (.add key data none) trivial ho
        cases ho
        exact hl.calls_quiet hinv (Or.inl rfl) (Or.inl hphase) (Or.inr rfl)
    · cases hs
  | next =>
    simp only [step] at hs
    split at hs
    · rename_i q hphase
      obtain ⟨hidle, o, ho, rfl⟩ := call_eq hs
      exact hl.call hidle (hl.calls_del hidle hphase ho)
    · rename_i q hphase
      obtain ⟨hidle, o, ho, rfl⟩ := call_eq hs
      exact hl.call hidle (hl.calls_release hidle hphase ho)
    · rename_i q hphase
      -- a second release is excluded
      exact absurd ⟨rfl, q, hphase⟩ ha
    · cases hs
  | psmgrIdle =>
    simp only [step] at hs
    split at hs
    · rename_i hphase
      obtain ⟨hidle, o, ho, rfl⟩ := call_eq hs
      have hinv := inv_call hl.inv hidle .freeDeletedEntries trivial ho
      cases ho
      exact hl.call hidle (hl.calls_quiet hinv (Or.inr rfl) (Or.inr hphase) (Or.inl rfl))
    · cases hs

/-- **Run.** -/
theorem life_run {h : Heap} {plist : Ptr} {reaper : ι → Bool}
    {hist : List (State ι × (ι × Act))} (hr : Run step (start ι h plist reaper) hist s)
    (hok : ∀ x ∈ hist, ¬ SecondRelease x.1 x.2) : Life s :=
  hr.invariant (fun s a => ¬ SecondRelease s a) Life (life_start h plist reaper)
    (fun _ _ _ => life_step) hok

end Niuchacz.Psmgr
