import Pintos.SynchSema

/-!
# Locks

A lock is a semaphore of value 1 and a holder, and taking the semaphore and writing the
holder are two statements: between them the semaphore is down and the lock has no holder,
and so it is again in `lock_release`. The history tells which of the threads owns a lock
and in which of these windows it is (`own`). What a thread has still to do must fit the
locks it owns (`Fits`), and a step of one thread changes what that thread owns only, so
that it is enough to look at the statement that is executed.

## Main results

* `SynchStep.guarded`: every disciplined step keeps the owners, the holders and the
  semaphores of the locks in agreement.
* `lock_mutual_exclusion`: at most one thread owns a lock, its holder is that thread, and
  no assertion of `threads/synch.c` fails.
-/

namespace Pintos

open Verif Verif.Outcome Function

/-- How far a thread is with a lock. -/
inductive Own where
  /-- It does not own the lock. -/
  | out
  /-- It has taken the semaphore, and is about to become the holder. -/
  | taken
  /-- It is between a successful acquire and its release. -/
  | inside
  /-- It is the holder no more, and has still to raise the semaphore. -/
  | leaving
  deriving DecidableEq, Repr

/-- What an event says about a thread and a lock. -/
def SynchEvent.owning : SynchEvent → Option (Tid × LockId × Own)
  | .down t (.lock l) => some (t, l, .taken)
  | .acquired t l => some (t, l, .inside)
  | .released t l => some (t, l, .leaving)
  | .up t (.lock l) => some (t, l, .out)
  | _ => none

/-- How far a thread is with a lock, by the latest event about them. -/
def own : List SynchEvent → Tid → LockId → Own
  | [], _, _ => .out
  | e :: log, t, l =>
    match e.owning with
    | some (u, k, o) => if t = u ∧ l = k then o else own log t l
    | none => own log t l

/-- What a statement about a semaphore makes of the locks the thread owns. -/
def SemaName.mark (n : SemaName) (o : Own) (σ : LockId → Own) : LockId → Own :=
  match n with
  | .lock l => update σ l o
  | .plain _ | .waiter _ => σ

/-- If the semaphore is a lock's, the thread is that far with the lock. -/
def SemaName.IsAt (n : SemaName) (o : Own) (σ : LockId → Own) : Prop :=
  match n with
  | .lock l => σ l = o
  | .plain _ | .waiter _ => True

/-- The statements left of a call **fit** the locks that the thread owns. -/
def Fits (lockOf : CondId → LockId) : (LockId → Own) → List Stmt → Prop
  | σ, [] => ∀ l, σ l = .out ∨ σ l = .inside
  | σ, .assertNotHeld l :: rest => σ l = .out ∧ Fits lockOf σ rest
  | σ, .assertHeld l :: rest => σ l = .inside ∧ Fits lockOf σ rest
  | σ, .semaInit _ :: rest => Fits lockOf σ rest
  | σ, .semaDown n :: rest => n.IsAt .out σ ∧ Fits lockOf (n.mark .taken σ) rest
  | σ, .semaLoop n :: rest => n.IsAt .out σ ∧ Fits lockOf (n.mark .taken σ) rest
  | σ, .semaTryDown n :: rest =>
    n.IsAt .out σ ∧ Fits lockOf σ rest ∧ Fits lockOf (n.mark .inside σ) rest
  | σ, .semaUp n :: rest => n.IsAt .leaving σ ∧ Fits lockOf (n.mark .out σ) rest
  | σ, .setHolder l :: rest => σ l = .taken ∧ Fits lockOf (update σ l .inside) rest
  | σ, .clearHolder l :: rest => σ l = .inside ∧ Fits lockOf (update σ l .leaving) rest
  | σ, .pushBack c :: rest => σ (lockOf c) = .inside ∧ Fits lockOf σ rest
  | σ, .signal c :: rest => σ (lockOf c) = .inside ∧ Fits lockOf σ rest
  | σ, .broadcast c l :: rest => l = lockOf c ∧ σ l = .inside ∧ Fits lockOf σ rest
  | σ, .returnWait c :: rest => σ (lockOf c) = .inside ∧ Fits lockOf σ rest

namespace Synch

/-- How far `t` is with the lock. -/
def owns (s : Synch) (t : Tid) (l : LockId) : Own := own s.log t l

/-- **The discipline**: no thread acquires a lock that it holds, releases one that it does
not hold, or uses a condition without holding the lock that goes with it. -/
def Disciplined (lockOf : CondId → LockId) (s : Synch) : SynchAction → Prop
  | .call t (.lockAcquire l) => s.owns t l ≠ .inside
  | .call t (.lockTryAcquire l) => s.owns t l ≠ .inside
  | .call t (.lockRelease l) => s.owns t l = .inside
  | .call t (.condWait c l) => l = lockOf c ∧ s.owns t l = .inside
  | .call t (.condSignal c l) => l = lockOf c ∧ s.owns t l = .inside
  | .call t (.condBroadcast c l) => l = lockOf c ∧ s.owns t l = .inside
  | _ => True

instance (lockOf : CondId → LockId) (s : Synch) :
    (a : SynchAction) → Decidable (s.Disciplined lockOf a)
  | .call t (.lockAcquire l) => inferInstanceAs (Decidable (s.owns t l ≠ .inside))
  | .call t (.lockTryAcquire l) => inferInstanceAs (Decidable (s.owns t l ≠ .inside))
  | .call t (.lockRelease l) => inferInstanceAs (Decidable (s.owns t l = .inside))
  | .call t (.condWait c l) => inferInstanceAs (Decidable (l = lockOf c ∧ s.owns t l = .inside))
  | .call t (.condSignal c l) => inferInstanceAs (Decidable (l = lockOf c ∧ s.owns t l = .inside))
  | .call t (.condBroadcast c l) =>
    inferInstanceAs (Decidable (l = lockOf c ∧ s.owns t l = .inside))
  | .call _ (.semaDown _) => .isTrue trivial
  | .call _ (.semaTryDown _) => .isTrue trivial
  | .call _ (.semaUp _) => .isTrue trivial
  | .run _ => .isTrue trivial
  | .setPriority _ => .isTrue trivial

/-- Nobody owns the lock, or exactly one thread does. -/
inductive LockState (s : Synch) (l : LockId) : Prop
  | free (hvalue : (s.semas (.lock l)).value = 1) (hholder : s.holder l = none)
      (hown : ∀ t, s.owns t l = .out)
  | owned (t : Tid) (hvalue : (s.semas (.lock l)).value = 0)
      (hholder : s.holder l = if s.owns t l = .inside then some t else none)
      (hown : s.owns t l ≠ .out) (hothers : ∀ u, u ≠ t → s.owns u l = .out)

/-- The locks, their owners and what the threads have still to do are in agreement. -/
structure Guarded (lockOf : CondId → LockId) (s : Synch) : Prop where
  fits : ∀ t, Fits lockOf (s.owns t) (s.threads t).todo
  locks : ∀ l, LockState s l

variable {s s' : Synch} {lockOf : CondId → LockId} {t u : Tid} {l : LockId} {n : SemaName}
  {stmt : Stmt} {rest rest' : List Stmt} {o : Own} {e : SynchEvent}

/-! ### What is recorded about locks -/

theorem own_cons_of_none {log : List SynchEvent} (he : e.owning = none) :
    own (e :: log) = own log := by
  funext t l
  rw [own, he]

theorem own_cons_of_some {log : List SynchEvent} (he : e.owning = some (u, l, o)) (t : Tid) :
    own (e :: log) t = if t = u then update (own log t) l o else own log t := by
  funext k
  rw [own, he]
  dsimp only
  split
  · rename_i h
    rw [if_pos h.1, h.2, update_self]
  · rename_i h
    split_ifs with htu
    · rw [update_of_ne fun hk => h ⟨htu, hk⟩]
    · rfl

/-- Taking or raising a semaphore, as far as it says something about a lock. -/
theorem owning_sema (n : SemaName) (t : Tid) :
    (∃ l, n = .lock l ∧ (SynchEvent.down t n).owning = some (t, l, .taken) ∧
      (SynchEvent.up t n).owning = some (t, l, .out)) ∨
    (∀ l, n ≠ .lock l) ∧ (SynchEvent.down t n).owning = none ∧
      (SynchEvent.up t n).owning = none := by
  cases n with
  | lock l => exact .inl ⟨l, rfl, rfl, rfl⟩
  | plain i | waiter u => exact .inr ⟨by simp, rfl, rfl⟩

/-! ### What a step leaves alone -/

/-- A lock that the step is not about. -/
theorem LockState.keep (h : LockState s l)
    (hvalue : (s'.semas (.lock l)).value = (s.semas (.lock l)).value)
    (hholder : s'.holder l = s.holder l) (howns : ∀ t, s'.owns t l = s.owns t l) :
    LockState s' l := by
  cases h with
  | free h₁ h₂ h₃ =>
    exact .free (hvalue.trans h₁) (hholder.trans h₂) fun t => (howns t).trans (h₃ t)
  | owned t h₁ h₂ h₃ h₄ =>
    refine .owned t (hvalue.trans h₁) ?_ ?_ fun u hu => (howns u).trans (h₄ u hu)
    · rw [hholder, h₂, howns]
    · rw [howns]
      exact h₃

/-- The owner of a lock is the thread that is known to own it. -/
theorem LockState.eq_owned (h : LockState s l) (ht : s.owns t l ≠ .out) :
    (s.semas (.lock l)).value = 0 ∧
    s.holder l = (if s.owns t l = .inside then some t else none) ∧
    ∀ u, u ≠ t → s.owns u l = .out := by
  cases h with
  | free _ _ h₃ => exact absurd (h₃ t) ht
  | owned u h₁ h₂ _ h₄ =>
    have htu : t = u := by
      by_contra hne
      exact ht (h₄ t hne)
    subst htu
    exact ⟨h₁, h₂, h₄⟩

/-- Nobody owns a lock whose semaphore can be taken. -/
theorem LockState.eq_free (h : LockState s l) (hv : (s.semas (.lock l)).value ≠ 0) :
    (s.semas (.lock l)).value = 1 ∧ s.holder l = none ∧ ∀ t, s.owns t l = .out := by
  cases h with
  | free h₁ h₂ h₃ => exact ⟨h₁, h₂, h₃⟩
  | owned _ h₁ _ _ _ => exact absurd h₁ hv

/-- **The rule for a step of `t`**: what it has still to do fits the locks it owns then, the
others are left alone, and every lock is in one of its states. -/
theorem Guarded.advance (h : Guarded lockOf s)
    (hgoes : Goes s s' t rest) (howns : ∀ u, u ≠ t → s'.owns u = s.owns u)
    (hfits : Fits lockOf (s'.owns t) rest) (hlocks : ∀ l, LockState s' l) :
    Guarded lockOf s' := by
  refine ⟨fun u => ?_, hlocks⟩
  rcases eq_or_ne u t with rfl | hu
  · rw [hgoes.self]
    exact hfits
  · rw [hgoes.others u hu, howns u hu]
    exact h.fits u

theorem Guarded.fits_of (h : Guarded lockOf s) {b : Bool} (ht : s.threads t = ⟨rest, b⟩) :
    Fits lockOf (s.owns t) rest := by
  have hfits := h.fits t
  rw [ht] at hfits
  exact hfits

/-- A step that is not about locks. -/
theorem Guarded.quiet (h : Guarded lockOf s)
    (hgoes : Goes s s' t rest) (howns : s'.owns = s.owns)
    (hholder : s'.holder = s.holder)
    (hvalue : ∀ l, (s'.semas (.lock l)).value = (s.semas (.lock l)).value)
    (hfits : Fits lockOf (s.owns t) rest) : Guarded lockOf s' := by
  refine h.advance hgoes (fun u _ => by rw [howns]) ?_ fun l => ?_
  · rw [howns]
    exact hfits
  · exact (h.locks l).keep (hvalue l) (by rw [hholder]) fun u => by rw [howns]

/-! ### What a step does to a lock -/

/-- The owners after `t` did something with the lock `l`. -/
theorem owns_of_log (hlog : s'.log = e :: s.log) (he : e.owning = some (t, l, o)) (u : Tid) :
    s'.owns u = if u = t then update (s.owns u) l o else s.owns u := by
  show own s'.log u = _
  rw [hlog]
  exact own_cons_of_some he u

theorem owns_of_log_self (hlog : s'.log = e :: s.log) (he : e.owning = some (t, l, o)) :
    s'.owns t = update (s.owns t) l o := by
  rw [owns_of_log hlog he, if_pos rfl]

theorem owns_of_log_other (hlog : s'.log = e :: s.log) (he : e.owning = some (t, l, o))
    (hu : u ≠ t) : s'.owns u = s.owns u := by
  rw [owns_of_log hlog he, if_neg hu]

theorem owns_of_log_none (hlog : s'.log = e :: s.log) (he : e.owning = none) :
    s'.owns = s.owns := by
  show own s'.log = _
  rw [hlog]
  exact own_cons_of_none he

/-- A step of `t` that is about the lock `l`, and what it leaves `t` with. -/
theorem Guarded.transition (h : Guarded lockOf s)
    (hgoes : Goes s s' t rest) (hlog : s'.log = e :: s.log)
    (he : e.owning = some (t, l, o))
    (hholder : ∀ k, k ≠ l → s'.holder k = s.holder k)
    (hvalue : ∀ k, k ≠ l → (s'.semas (.lock k)).value = (s.semas (.lock k)).value)
    (hfits : Fits lockOf (update (s.owns t) l o) rest) (hlock : LockState s' l) :
    Guarded lockOf s' := by
  refine h.advance hgoes (fun u hu => owns_of_log_other hlog he hu) ?_ fun k => ?_
  · rw [owns_of_log_self hlog he]
    exact hfits
  · rcases eq_or_ne k l with rfl | hk
    · exact hlock
    · refine (h.locks k).keep (hvalue k hk) (hholder k hk) fun u => ?_
      rw [owns_of_log hlog he]
      split
      · rw [update_of_ne hk]
      · rfl

/-- `t` takes a semaphore. -/
theorem Guarded.take (h : Guarded lockOf s)
    (hgoes : Goes s s' t rest) (hlog : s'.log = .down t n :: s.log)
    (hholder : s'.holder = s.holder) (hv : (s.semas n).value ≠ 0)
    (hvalue : s'.semas = update s.semas n { s.semas n with
      value := (s.semas n).value - 1 })
    (hfits : Fits lockOf (n.mark .taken (s.owns t)) rest) : Guarded lockOf s' := by
  rcases owning_sema n t with ⟨l, rfl, he, -⟩ | ⟨hn, he, -⟩
  · refine h.transition hgoes hlog he (fun k _ => by rw [hholder]) (fun k hk => ?_) hfits ?_
    · rw [hvalue, update_of_ne fun heq => hk (SemaName.lock.inj heq)]
    · -- the lock was free, and is taken now
      obtain ⟨hone, hnone, hout⟩ := (h.locks l).eq_free hv
      have htaken : s'.owns t l = .taken := by
        rw [owns_of_log_self hlog he, update_self]
      refine .owned t ?_ ?_ ?_ fun u hu => ?_
      · rw [hvalue, update_self, hone]
      · rw [hholder, hnone, htaken, if_neg (by simp)]
      · rw [htaken]
        simp
      · rw [owns_of_log_other hlog he hu]
        exact hout u
  · have hmark : n.mark .taken (s.owns t) = s.owns t := by
      cases n with
      | lock l => exact absurd rfl (hn l)
      | plain i | waiter u => rfl
    refine h.quiet hgoes (owns_of_log_none hlog he) hholder (fun l => ?_) (hmark ▸ hfits)
    rw [hvalue, update_of_ne (hn l).symm]

/-- `t` raises a semaphore. -/
theorem Guarded.raise (h : Guarded lockOf s)
    (hgoes : Goes s s' t rest) (hlog : s'.log = .up t n :: s.log)
    (hholder : s'.holder = s.holder)
    (hvalue : ∀ m, (s'.semas m).value =
      if m = n then ((s.semas n).value + 1) % 2 ^ 32 else (s.semas m).value)
    (hat : n.IsAt .leaving (s.owns t))
    (hfits : Fits lockOf (n.mark .out (s.owns t)) rest) : Guarded lockOf s' := by
  rcases owning_sema n t with ⟨l, rfl, -, he⟩ | ⟨hn, -, he⟩
  · refine h.transition hgoes hlog he (fun k _ => by rw [hholder]) (fun k hk => ?_) hfits ?_
    · rw [hvalue, if_neg fun heq => hk (SemaName.lock.inj heq)]
    · -- `t` was the owner, and nobody is now
      have hleaving : s.owns t l = .leaving := hat
      obtain ⟨hzero, hnone, hout⟩ := (h.locks l).eq_owned (t := t) (by rw [hleaving]; simp)
      refine .free ?_ ?_ fun u => ?_
      · rw [hvalue, if_pos rfl, hzero]
        rfl
      · rw [hholder, hnone, hleaving, if_neg (by simp)]
      · rw [owns_of_log hlog he]
        split
        · exact update_self _ _ _
        · exact hout u ‹_›
  · have hmark : n.mark .out (s.owns t) = s.owns t := by
      cases n with
      | lock l => exact absurd rfl (hn l)
      | plain i | waiter u => rfl
    refine h.quiet hgoes (owns_of_log_none hlog he) hholder (fun l => ?_) (hmark ▸ hfits)
    rw [hvalue, if_neg (hn l).symm]

/-- `t` writes the holder of a lock that it owns. -/
theorem Guarded.store (h : Guarded lockOf s) {holder : Option Tid}
    (hgoes : Goes s s' t rest) (hlog : s'.log = e :: s.log)
    (he : e.owning = some (t, l, o)) (hsemas : s'.semas = s.semas)
    (hholder : s'.holder = update s.holder l holder)
    (hown : s.owns t l ≠ .out) (ho : o ≠ .out)
    (hnew : holder = if o = .inside then some t else none)
    (hfits : Fits lockOf (update (s.owns t) l o) rest) : Guarded lockOf s' := by
  refine h.transition hgoes hlog he (fun k hk => ?_) (fun k _ => by rw [hsemas]) hfits ?_
  · rw [hholder, update_of_ne hk]
  · obtain ⟨hzero, -, hout⟩ := (h.locks l).eq_owned hown
    have hnow : s'.owns t l = o := by rw [owns_of_log_self hlog he, update_self]
    refine .owned t ?_ ?_ ?_ fun u hu => ?_
    · rw [hsemas, hzero]
    · rw [hholder, update_self, hnow, hnew]
    · rw [hnow]
      exact ho
    · rw [owns_of_log_other hlog he hu]
      exact hout u hu

/-! ### Calls -/

/-- `lock_acquire`, and what follows it. -/
theorem fits_lockAcquire {σ : LockId → Own} (hl : σ l = .out)
    (hrest : Fits lockOf (update σ l .inside) rest) :
    Fits lockOf σ (lockAcquire l ++ rest) := by
  refine ⟨hl, hl, update_self _ _ _, ?_⟩
  show Fits lockOf (update (update σ l .taken) l .inside) rest
  rw [update_idem]
  exact hrest

/-- `lock_release`, and what follows it. -/
theorem fits_lockRelease {σ : LockId → Own} (hl : σ l = .inside)
    (hrest : Fits lockOf (update σ l .out) rest) :
    Fits lockOf σ (lockRelease l ++ rest) := by
  refine ⟨hl, hl, update_self _ _ _, ?_⟩
  show Fits lockOf (update (update σ l .leaving) l .out) rest
  rw [update_idem]
  exact hrest

/-- `cond_wait` gives the lock up and takes it again. -/
theorem fits_condWait {σ : LockId → Own} (hσ : ∀ l, σ l = .out ∨ σ l = .inside) (t : Tid)
    {c : CondId} (hl : σ (lockOf c) = .inside) :
    Fits lockOf σ (condWait t c (lockOf c)) := by
  have hafter : Fits lockOf σ [.returnWait c] := ⟨hl, hσ⟩
  have hagain : Fits lockOf (update σ (lockOf c) .out)
      (lockAcquire (lockOf c) ++ [.returnWait c]) := by
    refine fits_lockAcquire (update_self _ _ _) ?_
    rw [update_idem, ← hl, update_eq_self]
    exact hafter
  have hwait : Fits lockOf σ (lockRelease (lockOf c) ++
      .semaDown (.waiter t) :: (lockAcquire (lockOf c) ++ [.returnWait c])) :=
    fits_lockRelease hl ⟨trivial, hagain⟩
  exact ⟨hl, hl, hwait⟩

/-- What a disciplined call has to do fits the locks that its thread holds. -/
theorem fits_body {c : Call} (hσ : ∀ l, s.owns t l = .out ∨ s.owns t l = .inside)
    (hc : s.Disciplined lockOf (.call t c)) : Fits lockOf (s.owns t) (c.body t) := by
  have hset : ∀ l o, o = .out ∨ o = .inside → ∀ k,
      update (s.owns t) l o k = .out ∨ update (s.owns t) l o k = .inside := by
    intro l o ho k
    rcases eq_or_ne k l with rfl | hk
    · rw [update_self]
      exact ho
    · rw [update_of_ne hk]
      exact hσ k
  cases c with
  | semaDown i | semaUp i => exact ⟨trivial, hσ⟩
  | semaTryDown i => exact ⟨trivial, hσ, hσ⟩
  | lockAcquire l =>
    have hrest : Fits lockOf (update (s.owns t) l .inside) [] :=
      hset l .inside (.inr rfl)
    exact fits_lockAcquire ((hσ l).resolve_right hc) hrest
  | lockTryAcquire l =>
    have hout := (hσ l).resolve_right hc
    exact ⟨hout, hout, hσ, hset l .inside (.inr rfl)⟩
  | lockRelease l =>
    have hrest : Fits lockOf (update (s.owns t) l .out) [] := hset l .out (.inl rfl)
    exact fits_lockRelease hc hrest
  | condWait c l =>
    obtain ⟨rfl, hl⟩ := hc
    exact fits_condWait hσ t hl
  | condSignal c l =>
    obtain ⟨rfl, hl⟩ := hc
    exact ⟨hl, hl, hσ⟩
  | condBroadcast c l =>
    obtain ⟨rfl, hl⟩ := hc
    exact ⟨rfl, hl, hσ⟩

theorem holder_recordCall (s : Synch) (t : Tid) (c : Call) :
    (s.recordCall t c).holder = s.holder ∧ (s.recordCall t c).owns = s.owns := by
  cases c with
  | condBroadcast c l => exact ⟨rfl, owns_of_log_none (s := s) rfl rfl⟩
  | _ => exact ⟨rfl, rfl⟩

end Synch

open Synch

/-- **Every disciplined step keeps the locks guarded.** -/
theorem SynchStep.guarded {s s' : Synch} {a : SynchAction} {lockOf : CondId → LockId}
    (hst : SynchStep s a s') (hc : s.Disciplined lockOf a) (h : s.Guarded lockOf) :
    s'.Guarded lockOf := by
  cases hst with
  | setPriority p => exact ⟨h.fits, fun l => (h.locks l).keep rfl rfl fun _ => rfl⟩
  | call t c htodo =>
    obtain ⟨hsemas, -⟩ := waiters_recordCall s t c
    obtain ⟨hholder, howns⟩ := holder_recordCall s t c
    have hσ : Fits lockOf (s.owns t) [] := by
      have hfits := h.fits t
      rw [htodo] at hfits
      exact hfits
    refine h.quiet (.call s t c) howns hholder (fun l => ?_) (fits_body hσ hc)
    rw [semas_goto, hsemas]
  | assertNotHeld ht _ | assertHeld ht _ =>
    exact h.quiet (.goto rfl) rfl rfl (fun _ => rfl) (h.fits_of ht).2
  | semaInit ht =>
    have hfits := h.fits_of ht
    exact h.quiet (.goto rfl) (owns_of_log_none rfl rfl) rfl (fun l => by simp) hfits
  | @block t n stmt rest ht hstmt hv =>
    refine h.quiet (.goto rfl) rfl rfl (fun l => value_setWaiters s _ _ _) ?_
    have hfits := h.fits_of ht
    rcases hstmt with rfl | rfl <;> exact hfits
  | @down t n stmt rest ht hstmt hv =>
    refine h.take (.goto rfl) rfl rfl hv rfl ?_
    rcases hstmt with rfl | rfl <;> exact (h.fits_of ht).2
  | @tryDown t n rest ht hv =>
    refine h.take (.goto rfl) rfl rfl hv rfl ?_
    obtain ⟨hat, hfail, hsuccess⟩ := h.fits_of ht
    cases n with
    | lock l =>
      refine ⟨update_self _ _ _, ?_⟩
      show Fits lockOf (update (update (s.owns t) l .taken) l .inside) rest
      rw [update_idem]
      exact hsuccess
    | plain i | waiter u => exact hfail
  | tryFail ht hv => exact h.quiet (.goto rfl) rfl rfl (fun _ => rfl) (h.fits_of ht).2.1
  | @up t n rest ht hw =>
    obtain ⟨hat, hfits⟩ := h.fits_of ht
    exact h.raise (.goto rfl) rfl rfl (value_increment s t n rest) hat hfits
  | @wake t w n rest ws ht hw hb =>
    obtain ⟨hat, hfits⟩ := h.fits_of ht
    exact h.raise (.wake s t w n ws rest) rfl rfl (value_wake s t w n ws rest) hat hfits
  | @setHolder t l rest ht | @clearHolder t l rest ht =>
    obtain ⟨hown, hfits⟩ := h.fits_of ht
    exact h.store (.goto rfl) rfl rfl rfl rfl (by rw [hown]; simp) (by simp) rfl hfits
  | pushBack ht | signalNone ht _ | returnWait ht =>
    exact h.quiet (.goto rfl) (owns_of_log_none rfl rfl) rfl (fun _ => rfl) (h.fits_of ht).2
  | signal ht _ =>
    exact h.quiet (.goto rfl) (owns_of_log_none rfl rfl) rfl (fun _ => rfl)
      ⟨trivial, (h.fits_of ht).2⟩
  | broadcastDone ht _ =>
    exact h.quiet (.goto rfl) (owns_of_log_none rfl rfl) rfl (fun _ => rfl) (h.fits_of ht).2.2
  | @broadcast t c l rest ht _ =>
    obtain ⟨rfl, hl, hrest⟩ := h.fits_of ht
    exact h.quiet (.goto rfl) rfl rfl (fun _ => rfl) ⟨hl, hl, rfl, hl, hrest⟩

namespace Synch

/-- **No assertion fails** in a state that is guarded. -/
theorem Guarded.step_ne_panic {s : Synch} {lockOf : CondId → LockId} (h : s.Guarded lockOf)
    (hp : s.Parked) (a : SynchAction) (e : SynchAssert) : s.step a ≠ .panic e := by
  intro hpanic
  cases a with
  | call t c =>
    rw [step, require_bind_eq_panic] at hpanic
    cases hpanic.2
  | setPriority p => cases hpanic
  | run t =>
    rw [step] at hpanic
    split at hpanic
    · cases hpanic
    rename_i stmt rest htodo
    rw [require_bind_eq_panic] at hpanic
    obtain ⟨hb, hpanic⟩ := hpanic
    have ht : s.threads t = ⟨stmt :: rest, false⟩ := by rw [← htodo, ← hb]
    have hfits := h.fits_of ht
    cases stmt with
    | assertNotHeld l =>
      rw [execute, ensure_bind_eq_panic] at hpanic
      rcases hpanic with ⟨hheld, -⟩ | ⟨-, hpanic⟩
      · have hout : s.owns t l = .out := hfits.1
        have hheld : s.holder l = some t := not_not.mp hheld
        cases h.locks l with
        | free _ hnone _ =>
          rw [hnone] at hheld
          cases hheld
        | owned u _ hholder hown _ =>
          rw [hholder] at hheld
          split at hheld
          · obtain rfl := Option.some.inj hheld
            exact hown hout
          · cases hheld
      · cases hpanic
    | assertHeld l =>
      rw [execute, ensure_bind_eq_panic] at hpanic
      rcases hpanic with ⟨hnot, -⟩ | ⟨-, hpanic⟩
      · have hin : s.owns t l = .inside := hfits.1
        have hholder := ((h.locks l).eq_owned (t := t) (by rw [hin]; simp)).2.1
        rw [if_pos hin] at hholder
        exact hnot hholder
      · cases hpanic
    | semaUp n =>
      rw [execute, semaUp] at hpanic
      split at hpanic
      · cases hpanic
      · rename_i w ws hw
        rcases bind_eq_panic.mp hpanic with hpanic | ⟨s₁, -, hpanic⟩
        · rw [threadUnblock, ensure_bind_eq_panic] at hpanic
          rcases hpanic with ⟨hnot, -⟩ | ⟨-, hpanic⟩
          · obtain ⟨rest', hw'⟩ := hp.of_mem (hw ▸ List.mem_cons_self : w ∈ _)
            refine hnot ?_
            rw [threads_setSema, hw']
          · cases hpanic
        · cases hpanic
    | signal c | broadcast c l =>
      rw [execute] at hpanic
      split at hpanic <;> cases hpanic
    | semaInit u | semaDown n | semaLoop n | semaTryDown n | setHolder l | clearHolder l
    | pushBack c | returnWait c => cases hpanic

end Synch

/-! ### Runs -/

theorem synchInit_guarded (value : SemaId → ℕ) (junk : Tid → ℕ) (lockOf : CondId → LockId) :
    (synchInit value junk).Guarded lockOf :=
  ⟨fun _ _ => .inl rfl, fun _ => .free rfl rfl fun _ => rfl⟩

/-- The locks are guarded in every state reached by disciplined steps. -/
theorem SynchReachable.guarded {value : SemaId → ℕ} {lockOf : CondId → LockId} {s : Synch}
    (h : SynchReachable value (Synch.Disciplined lockOf) s) : s.Guarded lockOf := by
  obtain ⟨junk, hreach⟩ := h
  exact hreach.invariant (synchInit_guarded value junk lockOf) fun s a s' hg hc hstep =>
    (step_cases hstep).guarded hc hg

/-- **Mutual exclusion and holder consistency.** In every run of any number of disciplined
threads, whatever the interleaving of their statements: at most one thread owns a lock,
from the moment it takes the semaphore to the moment it raises it again; the holder, if
there is one, is the thread between its successful acquire and its release; the semaphore
is 0 or 1, and 1 only when nobody owns the lock; and no assertion fails. -/
theorem lock_mutual_exclusion {value : SemaId → ℕ} {lockOf : CondId → LockId} {s : Synch}
    (h : SynchReachable value (Synch.Disciplined lockOf) s) (l : LockId) :
    (∀ t u, s.owns t l ≠ .out → s.owns u l ≠ .out → t = u) ∧
    (∀ t, s.holder l = some t ↔ s.owns t l = .inside) ∧
    ((s.semas (.lock l)).value = 0 ∨ (s.semas (.lock l)).value = 1) ∧
    ((s.semas (.lock l)).value = 1 → ∀ t, s.owns t l = .out) ∧
    ∀ a e, s.step a ≠ .panic e := by
  refine ⟨fun t u ht hu => ?_, fun t => ⟨fun hheld => ?_, fun hin => ?_⟩, ?_, fun hone t => ?_,
    h.guarded.step_ne_panic h.parked⟩
  · by_contra hne
    exact hu (((h.guarded.locks l).eq_owned ht).2.2 u (Ne.symm hne))
  · cases h.guarded.locks l with
    | free _ hnone _ =>
      rw [hnone] at hheld
      cases hheld
    | owned u _ hholder _ _ =>
      rw [hholder] at hheld
      split at hheld
      · rename_i hin
        exact Option.some.inj hheld ▸ hin
      · cases hheld
  · have hholder := ((h.guarded.locks l).eq_owned (t := t) (by rw [hin]; simp)).2.1
    rw [if_pos hin] at hholder
    exact hholder
  · cases h.guarded.locks l with
    | free hvalue _ _ => exact .inr hvalue
    | owned _ hvalue _ _ _ => exact .inl hvalue
  · exact ((h.guarded.locks l).eq_free (by rw [hone]; simp)).2.2 t

/-- Thread 1 has the lock; thread 2 has gone to sleep in `lock_acquire`, and thread 3 has
been turned away by `lock_try_acquire`. -/
def contendedLock : List SynchAction :=
  [.call 1 (.lockAcquire 0), .run 1, .call 2 (.lockAcquire 0), .run 1, .run 2, .run 2, .run 1,
    .call 3 (.lockTryAcquire 0), .run 3, .run 3]

theorem lock_mutual_exclusion_contended :
    ∃ s, SynchReachable (fun _ => 0) (Synch.Disciplined fun c => c) s ∧ s.owns 1 0 = .inside ∧
      (s.semas (.lock 0)).waiters = [2] ∧ ∀ u, s.owns u 0 ≠ .out → u = 1 := by
  have hreach : SynchReachable (fun _ => 0) (Synch.Disciplined fun c => c) _ :=
    ⟨fun _ => 0, contendedLock, Run.of_guarded rfl⟩
  refine ⟨_, hreach, rfl, rfl, fun u hu => ?_⟩
  exact (lock_mutual_exclusion hreach 0).1 u 1 hu (by decide)

end Pintos
