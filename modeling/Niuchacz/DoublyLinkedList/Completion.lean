import Niuchacz.DoublyLinkedList.RefCount
import Mathlib.Data.Fintype.Card

namespace Niuchacz.DoublyLinkedList.Concurrent

open Lib.LinkedRing Lib.Locks Lib.Transition

/-!
# Calls can always be finished

`doublylinkedlistDel` takes the lock of the deleted ring while it has that of the active ring, and
nothing takes them the other way round; the loops go over rings that only the owner of the lock
changes.  So whatever the threads are in the middle of, they can all get out.

* `Pc.needs` — the locks that a thread has or will take before it is out.
* `rank` — a bound on the steps a thread has to go if it runs alone; `rank_go` counts it down.
* `Clear` — nobody else has a lock that the thread needs.
* `exists_clear` — among threads inside a function there is one that is clear.
* `solo` — a clear thread gets out by itself.
* `drain` — all of them do, one after the other.
-/

/-! ### What a thread still needs -/

/-- The locks that a thread has or will take before it is out. -/
def Pc.needs (k : Side) : Pc → Bool
  | .idle => false
  | .addLock _ | .addLink _ _ | .addUnlock _ | .findLock _ | .findStart _ | .findTest _ _
  | .findUnlock _ | .delUnlock _ => k = .active
  | .delLock _ | .delUnlink _ _ | .delTest _ | .delMark _ | .delLockDeleted _ | .delLink _ _
  | .delUnlockDeleted _ => true
  | .sweepLock | .sweepStart _ | .sweepTest _ _ | .sweepLoad _ _ | .sweepNext _ _ | .sweepSave _ _
  | .sweepUnlink _ _ _ _ | .sweepFree _ _ _ | .sweepUnlock _ => k = .deleted

/-- The references that a thread may still count before it is out. -/
def Pc.asks : Pc → ℕ
  | .findLock _ | .findStart _ | .findTest _ _ => 1
  | _ => 0

/-- A call counts one reference at most. -/
theorem asks_le_one (p : Pc) : p.asks ≤ 1 := by
  cases p <;> simp [Pc.asks]

/-- Whoever has the deleted ring's lock has the other one or does not need it. -/
theorem holds_active_of_needs {p : Pc} (hd : p.holds .deleted = true)
    (ha : p.needs .active = true) : p.holds .active = true := by
  cases p <;> first | rfl | (cases hd; done) | cases ha

/-- The entries from `p` to the end of the ring. -/
def ahead (xs : List Ptr) (p : Ptr) : ℕ := xs.length - xs.idxOf p

/-- At the first of the entries `zs`, or at the head if there are none, as many are ahead. -/
theorem ahead_headD (a : Ptr) (ys zs : List Ptr) (hn : (a :: (ys ++ zs)).Nodup) :
    ahead (ys ++ zs) (zs.headD a) = zs.length := by
  have hoff : zs.headD a ∉ ys := by
    intro hmem
    cases zs with
    | nil => simp_all
    | cons z zs => simp [List.nodup_append] at hn; grind
  cases zs with
  | nil => simp_all [ahead, List.idxOf_of_notMem]
  | cons z zs => simp_all [ahead, List.idxOf_append]

variable {ι : Type}

/-- A bound on the steps a thread still has to go if it runs alone. -/
def rank (s : Shared ι) : Pc → ℕ
  | .idle => 0
  | .addLock _ => 6
  | .addLink _ k => 2 + (3 - k)
  | .addUnlock _ => 1
  | .findLock _ => 4 + (s.ring .active).length
  | .findStart _ => 3 + (s.ring .active).length
  | .findTest _ p => 2 + ahead (s.ring .active) p
  | .findUnlock _ => 1
  | .delLock _ => 14
  | .delUnlink _ k => 10 + (3 - k)
  | .delTest _ => 9
  | .delMark _ => 8
  | .delLockDeleted _ => 7
  | .delLink _ k => 3 + (3 - k)
  | .delUnlockDeleted _ => 2
  | .delUnlock _ => 1
  | .sweepLock => 4 + 10 * (s.ring .deleted).length
  | .sweepStart _ => 3 + 10 * (s.ring .deleted).length
  | .sweepTest _ p => 2 + 10 * ahead (s.ring .deleted) p
  | .sweepLoad _ p => 1 + 10 * ahead (s.ring .deleted) p
  | .sweepSave _ p => 10 * ahead (s.ring .deleted) p
  | .sweepNext _ p => 10 * ahead (s.ring .deleted) p
  | .sweepUnlink _ _ pnext k => 4 + (3 - k) + 10 * ahead (s.ring .deleted) pnext
  | .sweepFree _ _ pnext => 3 + 10 * ahead (s.ring .deleted) pnext
  | .sweepUnlock _ => 1

/-! ### Steps -/

/-- The lock that a thread takes next. -/
def Pc.wants : Pc → Option Side
  | .addLock _ | .findLock _ | .delLock _ => some .active
  | .delLockDeleted _ | .sweepLock => some .deleted
  | _ => none

/-- Where a thread stands when it has taken the lock. -/
def entered (s : Shared ι) : Pc → Pc
  | .addLock p => .addLink p 0
  | .findLock key => .findStart key
  | .delLock p => .delUnlink p 0
  | .delLockDeleted p => .delLink p 0
  | .sweepLock => .sweepStart ((s.ring .deleted).filter (s.heap.references · = 0))
  | p => p

/-- A lock that a thread waits for is one that it needs and does not hold. -/
theorem needs_of_wants {k : Side} {p : Pc} (h : p.wants = some k) :
    p.needs k = true ∧ p.holds k = false := by
  cases p <;> first | (cases h; exact ⟨rfl, rfl⟩) | cases h

section
variable {s : Shared ι} {t : ι} {p : Pc} {k : Side} {o : Shared ι × Pc}

/-- Unfolding lemma: the step of a thread that wants a lock is to take it. -/
theorem stepGo_of_wants (h : p.wants = some k) : stepGo s t p = lockThen s k t (entered s p) := by
  cases p <;> first | (cases h; rfl) | cases h

/-- A thread inside a function waits for nothing but locks. -/
theorem exists_stepGo (hp : p ≠ .idle) (hw : ∀ k, p.wants = some k → s.lock k = none) :
    ∃ o, stepGo s t p = some o := by
  cases hk : p.wants with
  | some k => exact ⟨_, by rw [stepGo_of_wants hk, lockThen_eq_some_iff]; exact ⟨hw k hk, rfl⟩⟩
  | none =>
    cases p with
    | findTest key q =>
      simp only [stepGo]
      split
      · exact ⟨_, rfl⟩
      · split <;> exact ⟨_, rfl⟩
    | sweepTest due q =>
      simp only [stepGo]
      split <;> exact ⟨_, rfl⟩
    | _ => first | exact ⟨_, rfl⟩ | exact absurd rfl hp | cases hk

end

/-- What a step inside a function does for its thread: it gets closer to the end, needs no other
    lock, and only `doublylinkedlistFind` counts a reference. -/
structure Nearer (s : Shared ι) (p : Pc) (o : Shared ι × Pc) : Prop where
  shorter : rank o.1 o.2 < rank s p
  locks : ∀ k, o.2.needs k = true → p.needs k = true
  refs : o.1.holders.length + o.2.asks ≤ s.holders.length + p.asks

section
variable {s : State ι} {t : ι} {p : Pc} {q : Ptr}

/-- Where the owner of a lock goes on from an entry of the ring, there is one entry less ahead. -/
theorem Inv.ahead_next (hinv : Inv s) (hp : s.pc t = p) (side : Side)
    (hh : p.holds side = true) (hw : p.work side = .none) (hq : q ∈ s.sh.ring side) :
    ahead (s.sh.ring side) (s.sh.heap.next q) + 1 = ahead (s.sh.ring side) q := by
  have hr := hinv.ring_of_holds side hp hh hw
  obtain ⟨ys, zs, hring⟩ := List.append_of_mem hq
  rw [hring] at hr ⊢
  have hhere : ahead (ys ++ q :: zs) q = zs.length + 1 := ahead_headD _ ys (q :: zs) hr.nodup
  have hthere : ahead (ys ++ q :: zs) (zs.headD (s.sh.head side)) = zs.length := by
    have hsplit : ys ++ q :: zs = (ys ++ [q]) ++ zs := by simp
    have hnodup := hr.nodup
    rw [hsplit] at hnodup ⊢
    exact ahead_headD _ _ _ hnodup
  rw [hr.next_mid, hhere, hthere]

/-- The loops start with the whole ring ahead. -/
theorem Inv.ahead_start (hinv : Inv s) (hp : s.pc t = p) (side : Side)
    (hh : p.holds side = true) (hw : p.work side = .none) :
    ahead (s.sh.ring side) (s.sh.heap.next (s.sh.head side)) = (s.sh.ring side).length := by
  have hr := hinv.ring_of_holds side hp hh hw
  rw [hr.next_head]
  exact ahead_headD _ [] _ hr.nodup

/-- Taking the entry off the ring leaves those after it. -/
theorem Inv.ahead_unlink (hinv : Inv s) {due : List Ptr} {pnext : Ptr} {n : ℕ}
    (hp : s.pc t = .sweepUnlink due q pnext n) :
    ahead ((s.sh.unlink t .deleted q n).ring .deleted) pnext =
      ahead (s.sh.ring .deleted) pnext := by
  have hk : Knows s.sh t (.sweepUnlink due q pnext n) := by rw [← hp]; exact hinv.knows t
  obtain ⟨-, ys, zs, hring, rfl, -⟩ := hk
  -- with the first store the entry leaves the ring, behind the place of the sweep
  by_cases hn : n = 0
  · subst hn
    rw [if_pos rfl] at hring
    have hwork := hinv.rings .deleted
    rw [State.work, viewOf_owner hinv.excl (t := t) (by rw [hp]; rfl), hp, hring] at hwork
    have hnodup : (s.sh.head .deleted :: ((ys ++ [q]) ++ zs)).Nodup := by
      simpa using hwork.2.nodup
    have hoff : q ∉ ys := by
      have hmid := notMem_of_ring_mid hwork.2
      simp only [List.mem_cons, List.mem_append, not_or] at hmid
      exact hmid.2.1
    have hrest : (s.sh.unlink t .deleted q 0).ring .deleted = ys ++ zs := by
      simp only [Shared.unlink, if_true, Function.update_self, hring]
      rw [List.erase_append_right _ hoff, List.erase_cons_head]
    have hnodup' : (s.sh.head .deleted :: (ys ++ zs)).Nodup :=
      hnodup.sublist (by simp)
    rw [hrest, hring, ahead_headD _ _ _ hnodup', show ys ++ q :: zs = (ys ++ [q]) ++ zs by simp,
      ahead_headD _ _ _ hnodup]
  · simp only [Shared.unlink, if_neg hn]

/-- **One step.** -/
theorem nearer_go {o : Shared ι × Pc} (hinv : Inv s) (h : stepGo s.sh t (s.pc t) = some o) :
    Nearer s.sh (s.pc t) o := by
  have hk := hinv.knows t
  cases hp : s.pc t with
  | idle => rw [hp] at h; cases h
  -- the rank goes down by one with each lock that is taken and each link that is written
  | addLock q | delLock q | delLockDeleted q | findLock key | sweepLock =>
    rw [hp] at h
    obtain ⟨-, rfl⟩ := lockThen_eq_some_iff.mp h
    exact ⟨by simp [rank], fun _ hk => hk, Nat.le_refl _⟩
  | addLink q n | delUnlink q n | delLink q n =>
    rw [hp] at h
    cases h
    by_cases hn : n < 3
    · simp only [if_pos hn]
      exact ⟨by simp only [rank]; omega, fun _ hk => hk, Nat.le_refl _⟩
    · simp only [if_neg hn]
      exact ⟨by simp only [rank]; omega, fun _ hk => hk, Nat.le_refl _⟩
  | addUnlock q | findUnlock r | delUnlock q | sweepUnlock due =>
    rw [hp] at h
    cases h
    refine ⟨by simp [rank], fun _ hk => ?_, Nat.le_refl _⟩
    cases hk
  | delMark q | delUnlockDeleted q =>
    rw [hp] at h
    cases h
    exact ⟨by simp [rank], fun _ _ => rfl, Nat.le_refl _⟩
  -- ==> the loops come nearer by an entry of the ring each
  | findStart key =>
    rw [hp] at h
    cases h
    refine ⟨?_, fun _ hk => hk, Nat.le_refl _⟩
    have hstart := hinv.ahead_start hp .active rfl rfl
    simp only [rank]
    rw [show s.sh.plist = s.sh.head .active from rfl, hstart]
    omega
  | findTest key q =>
    rw [hp] at h hk
    simp only [stepGo] at h
    by_cases hq : q = s.sh.plist
    · rw [if_pos hq] at h
      cases h
      exact ⟨by simp only [rank]; omega, fun _ hk => hk, by simp [Pc.asks]⟩
    · rw [if_neg hq] at h
      by_cases hkey : s.sh.heap.key q = key
      · rw [if_pos hkey] at h
        cases h
        exact ⟨by simp only [rank]; omega, fun _ hk => hk, by simp [Pc.asks]⟩
      · rw [if_neg hkey] at h
        cases h
        have hnext := hinv.ahead_next hp .active rfl rfl ((List.mem_cons.mp hk).resolve_left hq)
        exact ⟨by simp only [rank]; omega, fun _ hk => hk, Nat.le_refl _⟩
  | delTest q =>
    rw [hp] at h
    cases h
    by_cases hr : s.sh.heap.references q > 0
    · rw [if_pos hr]
      exact ⟨by simp [rank], fun _ hk => hk, Nat.le_refl _⟩
    · rw [if_neg hr]
      exact ⟨by simp [rank], fun _ _ => rfl, Nat.le_refl _⟩
  | sweepStart due =>
    rw [hp] at h
    cases h
    have hstart := hinv.ahead_start hp .deleted rfl rfl
    exact ⟨by simp only [rank, hstart]; omega, fun _ hk => hk, Nat.le_refl _⟩
  | sweepTest due q =>
    rw [hp] at h
    simp only [stepGo] at h
    split at h
    · cases h
      exact ⟨by simp only [rank]; omega, fun _ hk => hk, Nat.le_refl _⟩
    · cases h
      by_cases hd : s.sh.heap.isDeleted q = true
      · rw [if_pos hd]
        exact ⟨by simp [rank], fun _ hk => hk, Nat.le_refl _⟩
      · rw [if_neg hd]
        exact ⟨by simp [rank], fun _ hk => hk, Nat.le_refl _⟩
  | sweepLoad due q =>
    rw [hp] at h
    cases h
    by_cases hr : s.sh.heap.references q = 0
    · rw [if_pos hr]
      exact ⟨by simp [rank], fun _ hk => hk, Nat.le_refl _⟩
    · rw [if_neg hr]
      exact ⟨by simp [rank], fun _ hk => hk, Nat.le_refl _⟩
  -- ==> an entry that stays is passed
  | sweepNext due q =>
    rw [hp] at h hk
    cases h
    obtain ⟨ys, zs, hring, -⟩ := hk
    have hmem : q ∈ s.sh.ring .deleted := by rw [hring]; simp
    have hnext := hinv.ahead_next hp .deleted rfl rfl hmem
    exact ⟨by simp only [rank]; omega, fun _ hk => hk, Nat.le_refl _⟩
  -- ==> an entry that is freed is passed before it is unlinked
  | sweepSave due q =>
    rw [hp] at h hk
    cases h
    obtain ⟨-, ys, zs, hring, -⟩ := hk
    have hmem : q ∈ s.sh.ring .deleted := by rw [hring]; simp
    have hnext := hinv.ahead_next hp .deleted rfl rfl hmem
    exact ⟨by simp only [rank]; omega, fun _ hk => hk, Nat.le_refl _⟩
  | sweepUnlink due q pnext n =>
    rw [hp] at h
    cases h
    have hahead := hinv.ahead_unlink hp
    by_cases hn : n < 3
    · simp only [if_pos hn]
      exact ⟨by simp only [rank, hahead]; omega, fun _ hk => hk, Nat.le_refl _⟩
    · simp only [if_neg hn]
      exact ⟨by simp only [rank, hahead]; omega, fun _ hk => hk, Nat.le_refl _⟩
  | sweepFree due q pnext =>
    rw [hp] at h
    cases h
    exact ⟨by simp [rank], fun _ hk => hk, Nat.le_refl _⟩

/-! ### Whole calls -/

/-- Nobody else has a lock that the thread needs. -/
def Clear (s : State ι) (t : ι) : Prop :=
  ∀ k u, (s.pc t).needs k = true → (s.pc u).holds k = true → u = t

/-- **Lock order.**  Of threads inside functions one is clear: the owner of the deleted ring's
    lock, else the owner of the active ring's lock, else any of them. -/
theorem exists_clear (hinv : Inv s) (ht : s.pc t ≠ .idle) : ∃ u, s.pc u ≠ .idle ∧ Clear s u := by
  have hbusy : ∀ {u k}, (s.pc u).holds k = true → s.pc u ≠ .idle := by
    intro u k hu hidle
    rw [hidle] at hu
    cases hu
  -- whoever has the deleted ring's lock needs the other one only if they have it already
  by_cases hdel : ∃ u, (s.pc u).holds .deleted = true
  · obtain ⟨u, hu⟩ := hdel
    refine ⟨u, hbusy hu, ?_⟩
    intro k v hneed hv
    cases k with
    | deleted => exact hinv.excl.unique hv hu
    | active => exact hinv.excl.unique hv (holds_active_of_needs hu hneed)
  · by_cases hact : ∃ u, (s.pc u).holds .active = true
    · obtain ⟨u, hu⟩ := hact
      refine ⟨u, hbusy hu, ?_⟩
      intro k v _ hv
      cases k with
      | deleted => exact absurd ⟨v, hv⟩ hdel
      | active => exact hinv.excl.unique hv hu
    -- both locks are free
    · refine ⟨t, ht, ?_⟩
      intro k v _ hv
      cases k with
      | deleted => exact absurd ⟨v, hv⟩ hdel
      | active => exact absurd ⟨v, hv⟩ hact

/-- The lock that a clear thread wants is free. -/
theorem Clear.lock_free (hc : Clear s t) (hinv : Inv s) {k : Side}
    (hw : (s.pc t).wants = some k) : s.sh.lock k = none := by
  obtain ⟨hneed, hfree⟩ := needs_of_wants hw
  cases hl : s.sh.lock k with
  | none => rfl
  | some u =>
    have hu := (hinv.excl k u).mp hl
    rw [hc k u hneed hu, hfree] at hu
    cases hu

/-- With fewer references than the counter can hold, it does not overflow. -/
theorem noOverflow_of_holders (hinv : Inv s)
    (hroom : s.sh.holders.length + (s.pc t).asks < 2 ^ 32) : NoOverflow s (t, .go) := by
  intro key q hp _ hq _
  have hk : Knows s.sh t (.findTest key q) := by rw [← hp]; exact hinv.knows t
  have hentry := hinv.isEntry_of_mem ((List.mem_cons.mp hk).resolve_left hq)
  have hcount : s.sh.holders.countP (·.2 = q) ≤ s.sh.holders.length := List.countP_le_length
  rw [hinv.refs q hentry]
  rw [hp] at hroom
  simp only [Pc.asks] at hroom
  omega

/-- What a thread that ran alone leaves behind. -/
structure Finished (s : State ι) (t : ι) (s' : State ι) : Prop where
  inv : Inv s'
  idle : s'.pc t = .idle
  other : ∀ u, u ≠ t → s'.pc u = s.pc u
  refs : s'.sh.holders.length ≤ s.sh.holders.length + (s.pc t).asks

variable [DecidableEq ι]

/-- **One thread.**  A clear thread gets out of its function by steps of its own. -/
theorem solo (hinv : Inv s) (hc : Clear s t)
    (hroom : s.sh.holders.length + (s.pc t).asks < 2 ^ 32) :
    ∃ h s', Run step s h s' ∧ (∀ p ∈ h, p.2 = (t, .go)) ∧ Finished s t s' := by
  -- by induction on the bound for the steps that are left
  induction hn : rank s.sh (s.pc t) using Nat.strong_induction_on generalizing s with
  | _ n ih =>
    by_cases hidle : s.pc t = .idle
    · exact ⟨[], s, Run.nil, by simp, hinv, hidle, fun _ _ => rfl, Nat.le_add_right _ _⟩
    · obtain ⟨o, ho⟩ := exists_stepGo (s := s.sh) (t := t) hidle fun k hw => hc.lock_free hinv hw
      have hstep : step s (t, .go) = some (s.apply t o) := by
        simp only [step, outcome, ho, Option.map_some]
      have hnear := nearer_go hinv ho
      have hpc : (s.apply t o).pc t = o.2 := Function.update_self ..
      have hother : ∀ u, u ≠ t → (s.apply t o).pc u = s.pc u :=
        fun u hu => Function.update_of_ne hu ..
      have hinv' : Inv (s.apply t o) := inv_go hinv (noOverflow_of_holders hinv hroom) ho
      have hc' : Clear (s.apply t o) t := by
        intro k u hneed hu
        rw [hpc] at hneed
        by_cases hut : u = t
        · exact hut
        · rw [hother u hut] at hu
          exact hc k u (hnear.locks k hneed) hu
      have hrefs := hnear.refs
      obtain ⟨h, s', hrun, hlabels, hfin⟩ := ih (rank o.1 o.2) (hn ▸ hnear.shorter) hinv' hc'
        (by rw [hpc]; exact Nat.lt_of_le_of_lt hrefs hroom) (by rw [hpc]; rfl)
      refine ⟨(s, (t, .go)) :: h, s', (Run.single hstep).trans hrun, ?_, hfin.inv, hfin.idle, ?_,
        ?_⟩
      · intro p hp
        rcases List.mem_cons.mp hp with rfl | hp
        · rfl
        · exact hlabels p hp
      · intro u hu
        rw [hfin.other u hu, hother u hu]
      · have hfinal := hfin.refs
        rw [hpc] at hfinal
        exact Nat.le_trans hfinal hrefs

/-- The threads that are inside a function. -/
def busy [Fintype ι] (s : State ι) : Finset ι := Finset.univ.filter fun t => s.pc t ≠ .idle

/-- **All threads.**  Whatever the threads are in the middle of, they can all get out. -/
theorem drain [Fintype ι] (hinv : Inv s)
    (hroom : s.sh.holders.length + (busy s).card < 2 ^ 32) :
    ∃ h s', Run step s h s' ∧ (∀ p ∈ h, p.2.2 = .go) ∧ Inv s' ∧ ∀ t, s'.pc t = .idle := by
  induction hn : (busy s).card generalizing s with
  | zero =>
    refine ⟨[], s, Run.nil, by simp, hinv, fun t => ?_⟩
    have hempty := Finset.card_eq_zero.mp hn
    by_contra ht
    have hmem : t ∈ busy s := by simpa [busy] using ht
    rw [hempty] at hmem
    cases hmem
  | succ n ih =>
    obtain ⟨t, ht⟩ := Finset.card_pos.mp (show 0 < (busy s).card by omega)
    obtain ⟨u, hu, hc⟩ := exists_clear hinv (by simpa [busy] using ht)
    have hasks := asks_le_one (s.pc u)
    obtain ⟨h₁, s₁, hrun₁, hlabels₁, hfin⟩ := solo hinv hc (by omega)
    -- one thread less is inside
    have hbusy : busy s₁ = (busy s).erase u := by
      ext v
      by_cases hv : v = u
      · subst hv
        simp [busy, hfin.idle]
      · simp [busy, hfin.other v hv, hv]
    have hcard : (busy s₁).card = n := by
      rw [hbusy, Finset.card_erase_of_mem (by simpa [busy] using hu), hn]
      rfl
    have hrefs := hfin.refs
    obtain ⟨h₂, s₂, hrun₂, hlabels₂, hdone⟩ := ih hfin.inv (by omega) hcard
    refine ⟨h₁ ++ h₂, s₂, hrun₁.trans hrun₂, ?_, hdone⟩
    intro p hp
    rcases List.mem_append.mp hp with hp | hp
    · rw [hlabels₁ p hp]
    · exact hlabels₂ p hp

end

end Niuchacz.DoublyLinkedList.Concurrent
