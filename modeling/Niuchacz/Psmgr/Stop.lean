import Niuchacz.DoublyLinkedList.Recount
import Niuchacz.Psmgr.Life

namespace Niuchacz.Psmgr

open DoublyLinkedList DoublyLinkedList.Concurrent Lib.LinkedRing Lib.Locks Lib.Transition

/-!
# Waiting for the threads

`i_psmgrExecRoutine` releases its entry twice, so that counts wrap around and an entry can be freed
before its thread has come to the second release.  The threads are counted on all the same:
`psmgrStopUserThreads` waits until `_threadList` is empty before the kernel is taken down.

A release that comes after its entry has been freed decrements four bytes of memory that `malloc`
may have given to somebody else, at any offset in their object: a count, a link, a key.  `stepWild`
therefore lets such a release leave any heap at all, and the results are about the runs in which
there is none.

* `doublylinkedlistIsEmpty`, `psmgrStopUserThreads` — the loop that waits.
* `State.hitsFreed`, `stepWild` — releases of freed entries, and what they can do.
* `Intact` — what is left of the list's invariant when counts do not matter.
* `intact_step`, `intact_run` — every step but such a release keeps it, other second releases
  included.
* `thread_list_intact` — rings stay rings, and the entry of a running thread is on the active one.
* `stop_user_threads` — when the loop ends, no thread is in its routine any more.
-/

/-! ### The loop -/

/-- `doublylinkedlistIsEmpty`, which takes no lock. -/
def doublylinkedlistIsEmpty (h : Heap) (plist : Ptr) : Bool := h.next plist = plist

variable {ι : Type}

/-- `psmgrStopUserThreads`: `polls` are the states it finds, one second apart; the one it ends
    with, if any. -/
def psmgrStopUserThreads : List (State ι) → Option (State ι)
  | [] => none
  | s :: polls =>
      if !doublylinkedlistIsEmpty s.list.sh.heap s.list.sh.plist then psmgrStopUserThreads polls
      else some s

/-- The state that the loop ends with is one it has found, with an active ring that looks empty. -/
theorem stopUserThreads_spec {polls : List (State ι)} {s : State ι}
    (h : psmgrStopUserThreads polls = some s) :
    s ∈ polls ∧ s.list.sh.heap.next s.list.sh.plist = s.list.sh.plist := by
  induction polls with
  | nil => cases h
  | cons s₀ polls ih =>
    rw [psmgrStopUserThreads] at h
    split at h
    · obtain ⟨hmem, hempty⟩ := ih h
      exact ⟨List.mem_cons_of_mem _ hmem, hempty⟩
    · rename_i hempty
      cases h
      exact ⟨List.mem_cons_self, by simpa [doublylinkedlistIsEmpty] using hempty⟩

/-! ### Releases of freed memory -/

/-- The step is a `doublylinkedlistRelease` of an entry that has been freed. -/
def State.hitsFreed (s : State ι) : ι × Act → Bool
  | (t, .next) =>
      match s.phase t with
      | .deleted _ | .released _ => s.freed t
      | _ => false
  | _ => false

/-- A step, with any heap `l.2` after a release of a freed entry: the four bytes that it
    decrements can be in any object that `malloc` has made there in the meantime. -/
def stepWild [DecidableEq ι] (s : State ι) (l : (ι × Act) × Heap) : Option (State ι) :=
  (step s l.1).map fun s' =>
    if s.hitsFreed l.1 then
      { s' with list := { s'.list with sh := { s'.list.sh with heap := l.2 } } }
    else s'

/-- Other steps are those of `step`. -/
theorem stepWild_eq_step [DecidableEq ι] {s : State ι} {l : (ι × Act) × Heap}
    (h : s.hitsFreed l.1 = false) : stepWild s l = step s l.1 := by
  simp only [stepWild, h, Bool.false_eq_true, if_false]
  exact Option.map_id'

/-! ### What does not depend on counts -/

/-- The list's invariant for some counts and holders, and what is known of the entries of threads
    in their routines: nobody deletes them or has the same one, and an insertion has the head's
    successor before its last write. -/
structure Intact (s : State ι) : Prop where
  inv : ∃ refs hs, Inv (s.list.recount refs hs) ∧ ∀ t p, s.phase t = .added p → (t, p) ∈ hs
  within : ∀ t, s.list.pc t = .idle ∨ inside (s.list.pc t) = (s.phase t).inside
  fresh : ∀ t p, s.phase t = .added p → p ∉ s.list.sh.delCalled
  inj : ∀ t u p, s.phase t = .added p → s.phase u = .added p → t = u
  linking : ∀ t p n, s.list.pc t = .addLink p n → 3 ≤ n →
    s.list.sh.heap.next s.list.sh.plist = s.list.sh.heap.next p

/-- In the beginning no thread is in its routine and the list is empty. -/
theorem intact_start (h : Heap) (plist : Ptr) (reaper : ι → Bool) :
    Intact (start ι h plist reaper) := by
  have hl := life_start h plist reaper
  have hphase : ∀ t p, (start ι h plist reaper).phase t ≠ .added p := by
    intro t p
    simp only [start]
    split <;> simp
  exact ⟨⟨_, _, hl.inv, fun t p ht => absurd ht (hphase t p)⟩, hl.within, hl.fresh,
    fun t u p ht => absurd ht (hphase t p), fun t p n ht => by cases ht⟩

section
variable {s : State ι} {t u : ι} {p q : Ptr} {refs : Ptr → UInt32} {hs : List (ι × Ptr)}
  {o : Shared ι × Pc}

/-- The entry of a thread that has not deleted it is on the active ring or being put there. -/
theorem Intact.place (hi : Intact s) (hp : s.phase t = .added p) :
    s.list.sh.place p = .ring .active ∨ ∃ u, (s.list.pc u).adding = some p := by
  obtain ⟨refs, hs, hinv, hheld⟩ := hi.inv
  rcases hinv.placed p (hinv.held _ (hheld t p hp)) (hi.fresh t p hp) with h | ⟨u, hu⟩
  · exact Or.inl h
  · exact Or.inr ⟨u, by rw [← adding_undue]; exact hu⟩

/-- The entry of a thread in its routine has not been deleted. -/
theorem Intact.not_deleted (hi : Intact s) (hp : s.phase t = .added p) :
    s.list.sh.place p ≠ .ring .deleted := by
  obtain ⟨refs, hs, hinv, -⟩ := hi.inv
  rcases hi.place hp with h | ⟨u, hu⟩
  · rw [h]
    simp
  · have hown := hinv.own u p (own_of_adding (by rw [← adding_undue] at hu; exact hu))
    have hplace : s.list.sh.place p = .thread u := hown
    rw [hplace]
    simp

/-- No thread calls `doublylinkedlistFind`. -/
theorem Intact.not_find (hi : Intact s) (t : ι) : inside (s.list.pc t) ≠ some .find := by
  rcases hi.within t with h | h
  · rw [h]
    simp [inside]
  · rw [h]
    cases s.phase t <;> simp [Phase.inside]

/-- The ring of a lock is at the stage of its owner's link update. -/
theorem workOk_of_holds (hinv : Inv (s.list.recount refs hs)) {k : Side}
    (hh : (s.list.pc t).holds k = true) :
    WorkOk s.list.sh.heap (s.list.sh.head k) (s.list.sh.ring k) ((s.list.pc t).work k) := by
  have h := hinv.rings k
  have hh' : ((s.list.recount refs hs).pc t).holds k = true := (holds_undue k _).trans hh
  rw [State.work, viewOf_owner hinv.excl hh'] at h
  rw [← work_undue]
  exact h.congr (fun _ _ => ⟨rfl, rfl⟩) fun _ _ => ⟨rfl, rfl⟩

/-- Whoever does not have the lock of the active ring does not write its forward links. -/
theorem next_go (hinv : Inv (s.list.recount refs hs)) (hact : (s.list.pc t).holds .active = false)
    (h : stepGo s.list.sh t (s.list.pc t) = some o) {x : Ptr}
    (hx : x ∈ s.list.sh.plist :: s.list.sh.ring .active) :
    o.1.plist = s.list.sh.plist ∧ o.1.heap.next x = s.list.sh.heap.next x := by
  cases hp : s.list.pc t with
  | idle => rw [hp] at h; cases h
  | addLock q | findLock key | delLock q | sweepLock =>
    rw [hp] at h
    rw [(lockThen_eq_some_iff.mp h).2]
    exact ⟨rfl, rfl⟩
  | sweepTest due q =>
    rw [hp] at h
    simp only [stepGo] at h
    split at h <;> (cases h; exact ⟨rfl, rfl⟩)
  | sweepUnlink due q pnext n =>
    rw [hp] at h
    cases h
    refine ⟨rfl, ?_⟩
    have hw := workOk_of_holds hinv (t := t) (k := .deleted) (by rw [hp]; rfl)
    rw [hp] at hw
    -- the nodes of the active ring are neither on the deleted ring nor in anybody's hands
    have hoff := hinv.off_other (j := .active) (k := .deleted) (by simp) hx
    have hxq : x ≠ q := by
      rintro rfl
      by_cases hn : n = 0
      · subst hn
        exact hoff (List.mem_cons_of_mem _ hw.1)
      · refine hinv.place_of_own (t := t) ?_ .active hx
        show (s.list.pc t).undue.own = some x
        rw [hp]
        exact if_neg hn
    exact (unlinkWrite_frame hw hxq hoff).1
  | sweepStart due | sweepLoad due q | sweepNext due q | sweepSave due q | sweepFree due q pnext
  | sweepUnlock due =>
    rw [hp] at h
    cases h
    exact ⟨rfl, rfl⟩
  | _ => rw [hp] at hact; cases hact

/-- A ring with an entry that is not just being linked has a first entry. -/
theorem next_ne_head {h : Heap} {a x : Ptr} {xs : List Ptr} {w : Work}
    (hw : WorkOk h a xs w) (hx : x ∈ xs)
    (hlink : ∀ p n, w = .link p n → 3 ≤ n → x ≠ p ∧ h.next a = h.next p) : h.next a ≠ a := by
  have hring : ∀ {g : Heap}, g.Ring a xs → g.next a ≠ a := by
    intro g hr
    rw [hr.next_head]
    cases xs with
    | nil => cases hx
    | cons y ys => exact hr.ne_head List.mem_cons_self
  match w with
  | .none | .link _ 0 => exact hring hw
  | .link _ 1 | .link _ 2 => exact hring hw.1
  | .link p (n + 3) =>
    -- the entry being linked comes first, and its successor is the old first entry
    obtain ⟨hxp, hnext⟩ := hlink p (n + 3) rfl (Nat.le_add_left 3 n)
    have hr := hw.2
    have hpa : p ≠ a := hr.ne_head hw.1
    obtain ⟨ys, rfl⟩ : ∃ ys, xs = p :: ys := by
      have hfirst := hr.next_head
      simp only [addListNext, setNext_next, Function.update_self] at hfirst
      cases xs with
      | nil => cases hx
      | cons y ys => exact ⟨ys, by rw [hfirst]; rfl⟩
    have hsecond : (addListNext h a p).next p = ys.headD a :=
      Ring.next_mid (show (addListNext h a p).Ring a ([] ++ p :: ys) from hr)
    simp only [addListNext, setNext_next, Function.update_of_ne hpa] at hsecond
    rw [hnext, hsecond]
    have hmem : x ∈ ys := (List.mem_cons.mp hx).resolve_left hxp
    cases ys with
    | nil => cases hmem
    | cons y zs => exact hr.ne_head (by simp)
  | .unlink _ 0 => exact hring hw.2
  | .unlink p 1 =>
    have hne := hring hw.2
    simpa only [delNextPrev, setPrev_next] using hne
  | .unlink _ (_ + 2) => exact hring hw

/-- **Step, links.**  Until its last write an insertion has the head's successor. -/
theorem Intact.linking_go [DecidableEq ι] (hi : Intact s)
    (h : stepGo s.list.sh t (s.list.pc t) = some o) (v : ι) (x : Ptr) (n : ℕ)
    (hv : Function.update s.list.pc t o.2 v = .addLink x n) (hn : 3 ≤ n) :
    o.1.heap.next o.1.plist = o.1.heap.next x := by
  obtain ⟨refs, hs, hinv, -⟩ := hi.inv
  by_cases hvt : v = t
  · subst hvt
    rw [Function.update_self] at hv
    cases hp : s.list.pc v with
    | addLink q m =>
      have hw := workOk_of_holds hinv (t := v) (k := .active) (by rw [hp]; rfl)
      rw [hp] at h hw
      cases h
      by_cases hm : m < 3
      · rw [if_pos hm] at hv
        obtain ⟨rfl, rfl⟩ : q = x ∧ m + 1 = n := by simpa using hv
        obtain rfl : m = 2 := by omega
        exact hw.2.1.symm
      · rw [if_neg hm] at hv
        cases hv
    | addLock q =>
      rw [hp] at h
      rw [(lockThen_eq_some_iff.mp h).2] at hv
      cases hv
      omega
    | addUnlock q => rw [hp] at h; cases h; cases hv
    | _ =>
      -- the other functions do not come here
      rcases inside_go h with hout | hout
      · rw [hv] at hout
        cases hout
      · rw [hv, hp] at hout
        cases hout
  · rw [Function.update_of_ne hvt] at hv
    have hholds : (s.list.pc v).holds .active = true := by rw [hv]; rfl
    have hact : (s.list.pc t).holds .active = false := by
      rw [← Bool.not_eq_true]
      intro ht
      rw [← holds_undue] at ht hholds
      exact hvt (hinv.excl.unique hholds ht)
    have hmem : x ∈ s.list.sh.ring .active := by
      have hw := workOk_of_holds hinv hholds
      rw [hv] at hw
      obtain ⟨m, rfl⟩ : ∃ m, n = m + 3 := ⟨n - 3, by omega⟩
      exact hw.1
    obtain ⟨hplist, hx⟩ := next_go hinv hact h (List.mem_cons_of_mem _ hmem)
    rw [hplist, hx, (next_go hinv hact h List.mem_cons_self).2]
    exact hi.linking v x n hv hn

/-- **Step inside a list function.** -/
theorem Intact.go [DecidableEq ι] (hi : Intact s) (h : stepGo s.list.sh t (s.list.pc t) = some o)
    (freed : ι → Bool) : Intact { s with list := s.list.apply t o, freed := freed } where
  inv := by
    obtain ⟨refs, hs, hinv, hheld⟩ := hi.inv
    -- the threads never search the list, so that no step takes a reference
    have hfind : ∀ key p, s.list.pc t ≠ .findTest key p := by
      intro key p hp
      have hnot := hi.not_find t
      rw [hp] at hnot
      exact hnot rfl
    obtain ⟨refs', hs', hinv', hkeep⟩ := recount_go hinv h hfind
    exact ⟨refs', hs', hinv', fun u p hu => hkeep u p (hheld u p hu) (hi.not_deleted hu)⟩
  within := by
    refine forall_pc (P := fun u pc => pc = .idle ∨ inside pc = (s.phase u).inside) ?_
      fun u _ => hi.within u
    rcases inside_go h with hout | hout
    · exact Or.inl hout
    · rw [hout]
      exact (hi.within t).imp (fun hidle => by rw [hidle] at h; cases h) id
  fresh := by
    intro u p hu
    show p ∉ o.1.delCalled
    rw [(holders_go (hi.not_find t) h).2]
    exact hi.fresh u p hu
  inj := hi.inj
  linking := hi.linking_go h

/-- What a call that takes a thread to the phase `φ` does. -/
structure CallsIntact (s : State ι) (t : ι) (o : Shared ι × Pc) (φ : Phase) : Prop where
  within : o.2 = .idle ∨ inside o.2 = φ.inside
  alone : ∀ p, φ = .added p → ∀ v, v ≠ t → s.phase v ≠ .added p
  fresh : ∀ p, φ = .added p → p ∉ o.1.delCalled
  fresh' : ∀ v p, v ≠ t → s.phase v = .added p → p ∉ o.1.delCalled
  starts : ∀ p n, o.2 ≠ .addLink p n
  plist : o.1.plist = s.list.sh.plist
  next : ∀ x, s.list.sh.place x ≠ .free → o.1.heap.next x = s.list.sh.heap.next x

/-- **Calls.** -/
theorem Intact.call [DecidableEq ι] (hi : Intact s) {φ : Phase} (hc : CallsIntact s t o φ)
    (hinv' : ∃ refs hs, Inv ((s.list.apply t o).recount refs hs) ∧
      (∀ p, φ = .added p → (t, p) ∈ hs) ∧
      ∀ v p, v ≠ t → s.phase v = .added p → (v, p) ∈ hs) :
    Intact { s with list := s.list.apply t o, phase := Function.update s.phase t φ } where
  inv := by
    obtain ⟨refs, hs, hinv, hmine, hothers⟩ := hinv'
    exact ⟨refs, hs, hinv, (Function.forall_update_iff s.phase fun u ψ =>
      ∀ p, ψ = .added p → (u, p) ∈ hs).mpr ⟨hmine, fun v hv p => hothers v p hv⟩⟩
  within := by
    intro u
    by_cases hu : u = t
    · subst hu
      simpa only [State.apply, Function.update_self] using hc.within
    · simpa only [State.apply, Function.update_of_ne hu] using hi.within u
  fresh := (Function.forall_update_iff s.phase fun u ψ =>
    ∀ p, ψ = .added p → p ∉ o.1.delCalled).mpr ⟨hc.fresh, fun v hv p => hc.fresh' v p hv⟩
  inj := by
    intro u v p hu hv
    dsimp only at hu hv
    -- the new entry belongs to nobody else
    by_cases hut : u = t
    · subst hut
      by_cases hvu : v = u
      · exact hvu.symm
      · rw [Function.update_self] at hu
        rw [Function.update_of_ne hvu] at hv
        exact absurd hv (hc.alone p hu v hvu)
    · rw [Function.update_of_ne hut] at hu
      by_cases hvt : v = t
      · subst hvt
        rw [Function.update_self] at hv
        exact absurd hu (hc.alone p hv u hut)
      · rw [Function.update_of_ne hvt] at hv
        exact hi.inj u v p hu hv
  linking := by
    intro v x n hv hn
    -- a thread in the middle of its stores is another one, and its links are not touched
    have hvt : v ≠ t := by
      rintro rfl
      exact hc.starts x n (by simpa only [State.apply, Function.update_self] using hv)
    have hv' : s.list.pc v = .addLink x n := by
      simpa only [State.apply, Function.update_of_ne hvt] using hv
    obtain ⟨refs, hs, hinv, -⟩ := hi.inv
    have hhead : s.list.sh.place s.list.sh.plist = .head .active :=
      (hinv.heads .active _).mpr rfl
    -- the entry that is being linked is on the ring by now
    have hx : s.list.sh.place x = .ring .active := by
      have hw := workOk_of_holds hinv (t := v) (k := .active) (by rw [hv']; rfl)
      rw [hv'] at hw
      obtain ⟨m, rfl⟩ : ∃ m, n = m + 3 := ⟨n - 3, by omega⟩
      exact (hinv.mem .active x).mp hw.1
    show o.1.heap.next o.1.plist = o.1.heap.next x
    rw [hc.plist, hc.next _ (by rw [hhead]; simp), hc.next x (by rw [hx]; simp)]
    exact hi.linking v x n hv' hn

/-- A call that changes nothing but counts and holders. -/
theorem Intact.quiet [DecidableEq ι] (hi : Intact s) (hidle : s.list.pc t = .idle) {φ : Phase}
    (hsame : ∀ refs hs, o.1.recount refs hs = s.list.sh.recount refs hs)
    (hpc : o.2 = .idle ∨ (o.2 = .sweepLock ∧ φ = .reaper)) (hφ : ∀ p, φ ≠ .added p) :
    Intact { s with list := s.list.apply t o, phase := Function.update s.phase t φ } := by
  have hsh := hsame (fun _ => 0) []
  have hdel : o.1.delCalled = s.list.sh.delCalled := (congrArg Shared.delCalled hsh :)
  -- apart from the counters the list is as before
  have hcalls : CallsIntact s t o φ := {
    within := hpc.imp id fun h => by rw [h.1, h.2]; rfl
    alone := fun p hp => absurd hp (hφ p)
    fresh := fun p hp => absurd hp (hφ p)
    fresh' := fun v p _ hv => by rw [hdel]; exact hi.fresh v p hv
    starts := fun p n hp => by rcases hpc with h | ⟨h, -⟩ <;> rw [h] at hp <;> cases hp
    plist := (congrArg Shared.plist hsh :)
    next := fun x _ => (congrArg (fun sh : Shared ι => sh.heap.next x) hsh :) }
  obtain ⟨refs, hs, hinv, hheld⟩ := hi.inv
  refine hi.call hcalls ⟨refs, hs, ?_, fun p hp => absurd hp (hφ p),
    fun v p _ hv => hheld v p hv⟩
  rw [recount_apply, hsame]
  rcases hpc with h | ⟨h, -⟩ <;> rw [h] <;>
    exact hinv.stay (recount_idle hidle) (.plain (fun _ => rfl) rfl rfl rfl) (fun _ => rfl)
      (fun _ => Or.inl rfl) trivial

/-- The beginning of `i_psmgrExecRoutine`. -/
theorem Intact.add [DecidableEq ι] (hi : Intact s) (hidle : s.list.pc t = .idle) {key : UInt64}
    {data : List UInt8} (ho : stepCall s.list.sh t (.add key data (some q)) = some o) :
    Intact { s with list := s.list.apply t o, phase := Function.update s.phase t (.added q) } := by
  simp only [stepCall] at ho
  split at ho
  · cases ho
  · rename_i hc
    cases ho
    simp only [Bool.or_eq_true, decide_eq_true_eq, not_or, Bool.not_eq_true] at hc
    obtain ⟨⟨halloc, hactive⟩, hdeleted⟩ := hc
    obtain ⟨refs, hs, hinv, hheld⟩ := hi.inv
    -- `malloc` returns a block that is nobody's
    have hfree : s.list.sh.place q = .free := hinv.place_eq_free halloc hactive hdeleted
    refine hi.call ?_ ⟨Function.update refs q 1, (t, q) :: hs, ?_, ?_, ?_⟩
    · exact {
        within := Or.inr rfl
        alone := fun p hp v _ hv => by
          cases hp
          exact hinv.noHolder_of_free hfree _ (hheld v q hv) rfl
        fresh := fun p hp => by cases hp; simp
        fresh' := fun v p _ hv hmem => hi.fresh v p hv (List.mem_filter.mp hmem).1
        starts := fun p n hp => by cases hp
        plist := rfl
        next := fun x hx => Function.update_of_ne (fun he : x = q => hx (he.symm ▸ hfree)) .. }
    · rw [recount_apply]
      exact hinv.add (recount_idle hidle) key data halloc hactive hdeleted
    · intro p hp
      cases hp
      exact List.mem_cons_self
    · exact fun v p _ hv => List.mem_cons_of_mem _ (hheld v p hv)

/-- The call of `doublylinkedlistDel`, after the routine has returned. -/
theorem Intact.del [DecidableEq ι] (hi : Intact s) (hidle : s.list.pc t = .idle)
    (hphase : s.phase t = .added q) (ho : stepCall s.list.sh t (.del q) = some o) :
    Intact { s with
      list := s.list.apply t o, phase := Function.update s.phase t (.deleted q) } := by
  cases ho
  obtain ⟨refs, hs, hinv, hheld⟩ := hi.inv
  refine hi.call ?_ ⟨refs, hs, ?_, fun p hp => (by cases hp), fun v p _ hv => hheld v p hv⟩
  · exact {
      within := Or.inr rfl
      alone := fun p hp => by cases hp
      fresh := fun p hp => by cases hp
      -- another thread has another entry
      fresh' := fun v p hv hp hmem => by
        rcases List.mem_cons.mp hmem with rfl | hmem
        · exact hv (hi.inj v t p hp hphase)
        · exact hi.fresh v p hp hmem
      starts := fun p n hp => by cases hp
      plist := rfl
      next := fun _ _ => rfl }
  · rw [recount_apply]
    exact hinv.delete (recount_idle hidle) (hheld t q hphase) (hi.fresh t q hphase)

/-- **Step.** -/
theorem intact_step [DecidableEq ι] {a : ι × Act} {s' : State ι} (hi : Intact s)
    (hs : step s a = some s') : Intact s' := by
  obtain ⟨t, a⟩ := a
  cases a with
  | go =>
    obtain ⟨list, hlist, rfl⟩ := Option.map_eq_some_iff.mp hs
    obtain ⟨o, ho, rfl⟩ := Option.map_eq_some_iff.mp hlist
    exact hi.go ho _
  | add key data mem =>
    simp only [step] at hs
    split at hs
    · obtain ⟨hidle, o, ho, rfl⟩ := call_eq hs
      cases mem with
      | some q => exact hi.add hidle ho
      | none =>
        cases ho
        exact hi.quiet hidle (fun _ _ => rfl) (Or.inl rfl) fun p hp => by cases hp
    · cases hs
  | next =>
    simp only [step] at hs
    split at hs
    · rename_i q hphase
      obtain ⟨hidle, o, ho, rfl⟩ := call_eq hs
      exact hi.del hidle hphase ho
    -- a release, the first or the second one, changes only the count and who holds the entry
    · obtain ⟨hidle, o, ho, rfl⟩ := call_eq hs
      cases ho
      exact hi.quiet hidle (fun _ _ => rfl) (Or.inl rfl) fun p hp => by cases hp
    · obtain ⟨hidle, o, ho, rfl⟩ := call_eq hs
      cases ho
      exact hi.quiet hidle (fun _ _ => rfl) (Or.inl rfl) fun p hp => by cases hp
    · cases hs
  | psmgrIdle =>
    simp only [step] at hs
    split at hs
    · obtain ⟨hidle, o, ho, rfl⟩ := call_eq hs
      cases ho
      exact hi.quiet hidle (fun _ _ => rfl) (Or.inr ⟨rfl, rfl⟩) fun p hp => by cases hp
    · cases hs

/-- **Run.**  As long as no release hits an entry that has been freed. -/
theorem intact_run [DecidableEq ι] {h : Heap} {plist : Ptr} {reaper : ι → Bool}
    {hist : List (State ι × (ι × Act) × Heap)}
    (hr : Run stepWild (start ι h plist reaper) hist s)
    (hfreed : ∀ x ∈ hist, x.1.hitsFreed x.2.1 = false) : Intact s := by
  refine hr.invariant (fun s l => s.hitsFreed l.1 = false) Intact (intact_start h plist reaper)
    ?_ hfreed
  intro s l s' hi hl hs
  rw [stepWild_eq_step hl] at hs
  exact intact_step hi hs

/-! ### Threads in their routines -/

/-- The thread is between `doublylinkedlistAdd` and `doublylinkedlistDel`, where it runs
    `_p_execRoutine`. -/
def State.InRoutine (s : State ι) (t : ι) (p : Ptr) : Prop :=
  s.phase t = .added p ∧ s.list.pc t = .idle

/-- It is on the active ring. -/
theorem Intact.mem_active (hi : Intact s) (hin : s.InRoutine t p) :
    p ∈ s.list.sh.ring .active := by
  obtain ⟨hphase, hidle⟩ := hin
  obtain ⟨refs, hs, hinv, hheld⟩ := hi.inv
  rcases hi.place hphase with h | ⟨u, hu⟩
  · exact (hinv.mem .active p).mpr h
  · -- whoever is still adding an entry is the only one to hold it
    have hk : Knows (s.list.sh.recount refs hs) u (s.list.pc u).undue := hinv.knows u
    have htu : t = u := by
      cases hp : s.list.pc u with
      | addLock q =>
        rw [hp] at hu hk
        cases hu
        exact hk _ (hheld t p hphase) rfl
      | addLink q n =>
        rw [hp, Pc.adding] at hu
        rw [hp] at hk
        split at hu
        · rename_i hn
          cases hu
          exact hk hn _ (hheld t p hphase) rfl
        · cases hu
      | _ =>
        rw [hp] at hu
        cases hu
    rw [← htu, hidle] at hu
    cases hu

/-- Only `doublylinkedlistAdd` links entries into the active ring. -/
theorem eq_addLink_of_work {pc : Pc} {n : ℕ} (h : pc.work .active = .link p n) :
    pc = .addLink p n := by
  cases pc <;> simp_all [Pc.work]

/-- The ring of the active entries is not empty while a thread is in its routine, not even for a
    reader that does not take the lock. -/
theorem Intact.not_empty (hi : Intact s) (hin : s.InRoutine t p) :
    s.list.sh.heap.next s.list.sh.plist ≠ s.list.sh.plist := by
  have hmem := hi.mem_active hin
  obtain ⟨refs, hs, hinv, -⟩ := hi.inv
  cases hl : s.list.sh.lock .active with
  | none =>
    have hring : s.list.sh.heap.Ring s.list.sh.plist (s.list.sh.ring .active) :=
      hinv.ring_of_free hl
    exact next_ne_head (w := .none) hring hmem fun q n hw => by cases hw
  | some u =>
    have hholds : (s.list.pc u).holds .active = true := by
      rw [← holds_undue]
      exact (hinv.excl .active u).mp hl
    refine next_ne_head (workOk_of_holds hinv hholds) hmem fun q n hw hn => ?_
    have hpc := eq_addLink_of_work hw
    refine ⟨?_, hi.linking u q n hpc hn⟩
    -- the entry that `u` adds is that of `u`, which is not in its routine yet
    rintro rfl
    have hphase : s.phase u = .added p := by
      have hwithin := (hi.within u).resolve_left (by rw [hpc]; simp)
      rw [hpc] at hwithin
      cases hu : s.phase u <;> rw [hu] at hwithin <;> simp_all [inside, Phase.inside]
    rw [hi.inj t u p hin.1 hphase, State.InRoutine, hpc] at hin
    cases hin.2

/-- **Intact list.**  As long as no release hits an entry that has been freed, both rings stay
    well formed, and the entry of a thread stays on the active ring and allocated while the thread
    is in its routine: second releases do not touch links, and the counts that they spoil are
    looked at only for deleted entries. -/
theorem thread_list_intact [DecidableEq ι] {h : Heap} {plist : Ptr} {reaper : ι → Bool}
    {hist : List (State ι × (ι × Act) × Heap)}
    (hr : Run stepWild (start ι h plist reaper) hist s)
    (hfreed : ∀ x ∈ hist, x.1.hitsFreed x.2.1 = false) :
    (∀ k, s.list.sh.lock k = none →
        s.list.sh.heap.Ring (s.list.sh.head k) (s.list.sh.ring k)) ∧
      ∀ t p, s.InRoutine t p →
        p ∈ s.list.sh.ring .active ∧ s.list.sh.heap.allocated p = true := by
  have hi := intact_run hr hfreed
  obtain ⟨refs, hs, hinv, hheld⟩ := hi.inv
  refine ⟨fun k hl => hinv.ring_of_free hl, fun t p hin => ⟨hi.mem_active hin, ?_⟩⟩
  exact (hinv.alloc p).trans (hinv.held _ (hheld t p hin.1))

/-- Labels for steps that do not hit freed entries, whose heaps nobody looks at. -/
def tame (ls : List (ι × Act)) : List ((ι × Act) × Heap) := ls.map (·, Heap.zero)

/-- One thread is in its routine when the other one has released its entry twice. -/
theorem thread_list_intact_second_release :
    ∃ (hist : List (State Bool × (Bool × Act) × Heap)) (s : State Bool),
      Run stepWild (start Bool Heap.zero 100 fun _ => false) hist s ∧
      (∀ x ∈ hist, x.1.hitsFreed x.2.1 = false) ∧
      s.phase false = .finished 200 ∧ s.InRoutine true 300 ∧
      300 ∈ s.list.sh.ring .active ∧ s.list.sh.heap.allocated 300 = true := by
  have hplay : ((play stepWild (fun s l => !s.hitsFreed l.1)
      (start Bool Heap.zero 100 fun _ => false)
      (tame ((false, .add 7 [] (some 200)) :: List.replicate 6 (false, .go) ++
        (true, .add 8 [] (some 300)) :: List.replicate 6 (true, .go) ++
        (false, .next) :: List.replicate 14 (false, .go) ++
        [(false, .next), (false, .next)]))).any fun s =>
          decide (s.phase false = .finished 200) &&
          (decide (s.phase true = .added 300) && decide (s.list.pc true = .idle))) = true := by
    decide
  obtain ⟨hist, s, hr, hok, hs⟩ := exists_run_of_play stepWild _ _ _ _ hplay
  have hfreed : ∀ x ∈ hist, x.1.hitsFreed x.2.1 = false := fun x hx => by simpa using hok x hx
  simp only [Bool.and_eq_true, decide_eq_true_eq] at hs
  have hin : s.InRoutine true 300 := hs.2
  exact ⟨hist, s, hr, hfreed, hs.1, hin, (thread_list_intact hr hfreed).2 true 300 hin⟩

/-- **Barrier.**  As long as no release hits an entry that has been freed, no thread is in its
    routine when `psmgrStopUserThreads` returns. -/
theorem stop_user_threads [DecidableEq ι] {h : Heap} {plist : Ptr} {reaper : ι → Bool}
    {polls : List (State ι)}
    (hr : ∀ s ∈ polls, ∃ hist, Run stepWild (start ι h plist reaper) hist s ∧
      ∀ x ∈ hist, x.1.hitsFreed x.2.1 = false)
    (hstop : psmgrStopUserThreads polls = some s) (t : ι) (p : Ptr) : ¬ s.InRoutine t p := by
  intro hin
  obtain ⟨hmem, hempty⟩ := stopUserThreads_spec hstop
  obtain ⟨hist, hrun, hfreed⟩ := hr s hmem
  exact (intact_run hrun hfreed).not_empty hin hempty

/-- The loop finds a thread in its routine, and a second later its entry deleted. -/
theorem stop_user_threads_two_polls :
    ∃ s₁ s₂ : State Bool,
      (∃ hist, Run stepWild (start Bool Heap.zero 100 id) hist s₁ ∧
        ∀ x ∈ hist, x.1.hitsFreed x.2.1 = false) ∧
      s₁.InRoutine false 200 ∧ psmgrStopUserThreads [s₁, s₂] = some s₂ ∧
      ¬ s₂.InRoutine false 200 := by
  -- the list is polled while the thread is in its routine, and after it has deleted its entry
  have hplay : ((play stepWild (fun s l => !s.hitsFreed l.1) (start Bool Heap.zero 100 id)
      (tame ((false, .add 7 [] (some 200)) :: List.replicate 6 (false, .go)))).any fun s₁ =>
        (decide (s₁.phase false = .added 200) && decide (s₁.list.pc false = .idle)) &&
        (play stepWild (fun s l => !s.hitsFreed l.1) s₁
          (tame ((false, .next) :: List.replicate 14 (false, .go)))).any fun s₂ =>
            !doublylinkedlistIsEmpty s₁.list.sh.heap s₁.list.sh.plist &&
            doublylinkedlistIsEmpty s₂.list.sh.heap s₂.list.sh.plist) = true := by
    decide
  obtain ⟨s₁, hs₁, hplay⟩ := (Option.any_eq_true _ _).mp hplay
  rw [Bool.and_eq_true, Bool.and_eq_true, decide_eq_true_eq, decide_eq_true_eq] at hplay
  obtain ⟨hin, hplay⟩ := hplay
  obtain ⟨s₂, hs₂, hempty⟩ := (Option.any_eq_true _ _).mp hplay
  rw [Bool.and_eq_true] at hempty
  have hr₁ := run_of_play hs₁
  have hr₂ := exists_run_trans hr₁ (run_of_play hs₂)
  simp only [Bool.not_eq_true'] at hr₁ hr₂
  have hstop : psmgrStopUserThreads [s₁, s₂] = some s₂ := by
    simp [psmgrStopUserThreads, hempty.1, hempty.2]
  have hruns : ∀ s ∈ [s₁, s₂], ∃ hist, Run stepWild (start Bool Heap.zero 100 id) hist s ∧
      ∀ x ∈ hist, x.1.hitsFreed x.2.1 = false := by
    intro s hs
    rcases List.mem_pair.mp hs with rfl | rfl
    · exact hr₁
    · exact hr₂
  exact ⟨s₁, s₂, hr₁, hin, hstop, stop_user_threads hruns hstop false 200⟩

end

end Niuchacz.Psmgr
