/-
# MipsOnQemu.Linux.Rwsem -- reader-writer semaphores

`lib/rwsem-spinlock.c`. Each function is one critical section of `wait_lock`. It returns the semaphore and
the requests that it grants: the caller's own if it need not sleep, and those of the waiters whose `task` it
clears. `__up_read` hands the lock to the head of the queue without looking at its kind; that the head is a
writer is an invariant that all the calls keep together (`RwInv.head`).
-/

import MipsOnQemu.Lib.Runs

namespace Linux

open List Option

variable {τ : Type*}

/-- `RWSEM_WAITING_FOR_READ`, `RWSEM_WAITING_FOR_WRITE`. -/
inductive RwFlags where
  | read
  | write
  deriving DecidableEq

structure RwsemWaiter (τ : Type*) where
  task : τ
  flags : RwFlags
  deriving DecidableEq

structure RwSemaphore (τ : Type*) where
  activity : Int
  waitList : List (RwsemWaiter τ)

/-- The semaphore after a critical section, and the requests granted. -/
abbrev RwResult (τ : Type*) := RwSemaphore τ × List (RwsemWaiter τ)

section Calls

variable (sem : RwSemaphore τ)

/-- `__rwsem_do_wake`, which is called with a queue that is not empty. -/
def rwsemDoWake (wakewrite : Bool) : RwResult τ :=
  match sem.waitList with
  | [] => (sem, [])
  | waiter :: rest =>
    if waiter.flags = .write then
      if wakewrite then (⟨-1, rest⟩, [waiter]) else (sem, [])
    else
      -- the loop takes readers off the front, up to a writer or the end of the queue
      let woken := sem.waitList.takeWhile (·.flags = .read)
      (⟨sem.activity + woken.length, sem.waitList.dropWhile (·.flags = .read)⟩, woken)

/-- `__rwsem_wake_one_writer`, which is called with a queue that is not empty. -/
def rwsemWakeOneWriter : RwResult τ := (⟨-1, sem.waitList.tail⟩, sem.waitList.take 1)

/-- The test before a lock is taken: `activity >= 0` for reading, `activity == 0` for writing. -/
def RwFlags.free (activity : Int) : RwFlags → Bool
  | .read => 0 ≤ activity
  | .write => activity = 0

def RwFlags.take (activity : Int) : RwFlags → Int
  | .read => activity + 1
  | .write => -1

/-- `__down_read` and `__down_write_nested`. -/
def rwDown (waiter : RwsemWaiter τ) : RwResult τ :=
  if waiter.flags.free sem.activity ∧ sem.waitList.isEmpty then
    ({ sem with activity := waiter.flags.take sem.activity }, [waiter])
  else ({ sem with waitList := sem.waitList ++ [waiter] }, [])

def rwTrylock (flags : RwFlags) : RwSemaphore τ × Bool :=
  if flags.free sem.activity ∧ sem.waitList.isEmpty then
    ({ sem with activity := flags.take sem.activity }, true)
  else (sem, false)

def downRead (tsk : τ) : RwResult τ := rwDown sem ⟨tsk, .read⟩

def downReadTrylock : RwSemaphore τ × Bool := rwTrylock sem .read

def downWrite (tsk : τ) : RwResult τ := rwDown sem ⟨tsk, .write⟩

def downWriteTrylock : RwSemaphore τ × Bool := rwTrylock sem .write

def upRead : RwResult τ :=
  let sem := { sem with activity := sem.activity - 1 }
  if sem.activity = 0 ∧ ¬sem.waitList.isEmpty then rwsemWakeOneWriter sem else (sem, [])

def upWrite : RwResult τ :=
  let sem := { sem with activity := 0 }
  if ¬sem.waitList.isEmpty then rwsemDoWake sem true else (sem, [])

def downgradeWrite : RwResult τ :=
  let sem := { sem with activity := 1 }
  if ¬sem.waitList.isEmpty then rwsemDoWake sem false else (sem, [])

end Calls

/-! ## The tasks -/

/-- A semaphore with those that hold it, as often as they do, and with the requests in the order in which
they were made and in the order in which they were granted. -/
structure RwSystem (τ : Type*) where
  sem : RwSemaphore τ
  holders : List (RwsemWaiter τ)
  asked : List (RwsemWaiter τ)
  granted : List (RwsemWaiter τ)

def initRwsem : RwSystem τ := ⟨⟨0, []⟩, [], [], []⟩

inductive RwOp (τ : Type*) where
  | downRead (tsk : τ)
  | downReadTrylock (tsk : τ)
  | downWrite (tsk : τ)
  | downWriteTrylock (tsk : τ)
  | upRead (tsk : τ)
  | upWrite (tsk : τ)
  | downgradeWrite (tsk : τ)

/-- Those to whom a critical section grants the lock hold it, each in the way it asked for. -/
def RwSystem.grant (s : RwSystem τ) (r : RwResult τ) : List (RwsemWaiter τ) × RwSystem τ :=
  (r.2, { s with sem := r.1, holders := s.holders ++ r.2, granted := s.granted ++ r.2 })

def RwSystem.ask (s : RwSystem τ) (w : RwsemWaiter τ) : RwSystem τ := { s with asked := s.asked ++ [w] }

/-- A lock that is tried in vain is no request. -/
def RwSystem.tried (s : RwSystem τ) (w : RwsemWaiter τ) (r : RwSemaphore τ × Bool) :
    List (RwsemWaiter τ) × RwSystem τ :=
  if r.2 then (s.ask w).grant (r.1, [w]) else ([], { s with sem := r.1 })

/-- A task gives back what it holds, and nothing else. -/
def RwSystem.release [DecidableEq τ] (s : RwSystem τ) (w : RwsemWaiter τ) : Option (RwSystem τ) :=
  if w ∈ s.holders then some { s with holders := s.holders.erase w } else none

/-- A task's call, with the requests it grants. -/
def rwStep [DecidableEq τ] (s : RwSystem τ) : RwOp τ → Option (List (RwsemWaiter τ) × RwSystem τ)
  | .downRead tsk => some ((s.ask ⟨tsk, .read⟩).grant (downRead s.sem tsk))
  | .downReadTrylock tsk => some (s.tried ⟨tsk, .read⟩ (downReadTrylock s.sem))
  | .downWrite tsk => some ((s.ask ⟨tsk, .write⟩).grant (downWrite s.sem tsk))
  | .downWriteTrylock tsk => some (s.tried ⟨tsk, .write⟩ (downWriteTrylock s.sem))
  | .upRead tsk => (s.release ⟨tsk, .read⟩).map (·.grant (upRead s.sem))
  | .upWrite tsk => (s.release ⟨tsk, .write⟩).map (·.grant (upWrite s.sem))
  | .downgradeWrite tsk => (s.release ⟨tsk, .write⟩).map fun s' =>
      { s' with holders := ⟨tsk, .read⟩ :: s'.holders }.grant (downgradeWrite s.sem)

/-! ## The invariant -/

def AllRead (ws : List (RwsemWaiter τ)) : Prop := ∀ w ∈ ws, w.flags = .read

/-- The queue is empty, or a writer is at its head. -/
def WriterFirst (ws : List (RwsemWaiter τ)) : Prop := ∀ w ∈ ws.head?, w.flags = .write

structure RwInv (s : RwSystem τ) : Prop where
  /-- `activity` counts the readers, or is -1 for the only writer. -/
  activity : (s.sem.activity = s.holders.length ∧ AllRead s.holders) ∨
    (s.sem.activity = -1 ∧ ∃ tsk, s.holders = [⟨tsk, .write⟩])
  /-- Behind readers waits a writer. -/
  head : ∀ w ∈ s.holders, w.flags = .read → WriterFirst s.sem.waitList
  /-- Nobody waits for a lock that is free. -/
  free : s.holders = [] → s.sem.waitList = []
  /-- The lock is granted in the order of the requests. -/
  order : s.asked = s.granted ++ s.sem.waitList

/-- After a call that grants one request at most, or all the neighbouring readers at the head of the queue. -/
def RwFair (p : List (RwsemWaiter τ) × RwSystem τ) : Prop :=
  RwInv p.2 ∧ (p.1.length ≤ 1 ∨ AllRead p.1 ∧ WriterFirst p.2.sem.waitList)

variable {s : RwSystem τ} {w : RwsemWaiter τ} {ws : List (RwsemWaiter τ)}

/-- What a section that grants the lock to readers does: it takes those at the head of the queue. -/
structure ReadersWoken (sem : RwSemaphore τ) (r : RwResult τ) : Prop where
  kind : AllRead r.2
  count : r.1.activity = sem.activity + r.2.length
  queue : sem.waitList = r.2 ++ r.1.waitList
  first : WriterFirst r.1.waitList

theorem readersWoken_nil {sem : RwSemaphore τ} (h : WriterFirst sem.waitList) : ReadersWoken sem (sem, []) :=
  ⟨nofun, (add_zero _).symm, rfl, h⟩

theorem writerFirst_dropWhile (ws : List (RwsemWaiter τ)) : WriterFirst (ws.dropWhile (·.flags = .read)) := by
  intro w hw
  have hnot := head?_dropWhile_not (fun w : RwsemWaiter τ => decide (w.flags = .read)) ws
  rw [mem_def.mp hw] at hnot
  cases hflags : w.flags with
  | write => rfl
  | read => simp [hflags] at hnot

/-- `__rwsem_do_wake` grants the lock to the writer at the head, or to the readers there. -/
theorem rwsemDoWake_spec (sem : RwSemaphore τ) (wakewrite : Bool) :
    (wakewrite ∧ ∃ w rest, w.flags = .write ∧ sem.waitList = w :: rest ∧
      rwsemDoWake sem wakewrite = (⟨-1, rest⟩, [w])) ∨
    ReadersWoken sem (rwsemDoWake sem wakewrite) ∧
      (wakewrite → (rwsemDoWake sem wakewrite).2 = [] → sem.waitList = []) := by
  unfold rwsemDoWake
  split
  · rename_i hnil
    exact .inr ⟨readersWoken_nil (by simp [WriterFirst, hnil]), fun _ _ => hnil⟩
  rename_i w rest hqueue
  cases hflags : w.flags with
  | write =>
    rw [if_pos rfl]
    split
    · rename_i hwake
      exact .inl ⟨hwake, w, rest, hflags, hqueue, rfl⟩
    · rename_i hwake
      exact .inr ⟨readersWoken_nil (by simp [WriterFirst, hqueue, hflags]), fun h => absurd h hwake⟩
  | read =>
    rw [if_neg RwFlags.noConfusion]
    refine .inr ⟨⟨fun v hv => ?_, rfl, takeWhile_append_dropWhile.symm, writerFirst_dropWhile _⟩, fun _ h => ?_⟩
    · have hread := mem_takeWhile_imp (p := fun w : RwsemWaiter τ => decide (w.flags = .read)) hv
      exact of_decide_eq_true hread
    · simp [hqueue, hflags] at h

/-- An empty queue need not be excepted. -/
theorem wake_eq (sem : RwSemaphore τ) (wakewrite : Bool) :
    (if ¬sem.waitList.isEmpty then rwsemDoWake sem wakewrite else (sem, [])) = rwsemDoWake sem wakewrite := by
  split
  · rfl
  · rename_i hnil
    rw [rwsemDoWake, isEmpty_iff.mp (not_not.mp hnil)]

/-- **Readers get the lock**, when no writer has it. -/
theorem RwFair.readers {r : RwResult τ} (hread : AllRead s.holders) (hcount : s.sem.activity = s.holders.length)
    (horder : s.asked = s.granted ++ s.sem.waitList) (h : ReadersWoken s.sem r)
    (hfree : s.holders = [] → r.2 = [] → s.sem.waitList = []) : RwFair (s.grant r) := by
  refine ⟨⟨.inl ⟨?_, ?_⟩, fun _ _ _ => h.first, fun hno => ?_, ?_⟩, .inr ⟨h.kind, h.first⟩⟩
  · simp [RwSystem.grant, h.count, hcount]
  · exact forall_mem_append.mpr ⟨hread, h.kind⟩
  · obtain ⟨hholders, hnil⟩ := append_eq_nil_iff.mp hno
    have hqueue := h.queue
    rw [hfree hholders hnil, hnil] at hqueue
    exact hqueue.symm
  · simp [RwSystem.grant, horder, h.queue]

/-- **A writer gets the lock**, when nobody has it. -/
theorem RwFair.writer (hholders : s.holders = []) (hflags : w.flags = .write)
    (horder : s.asked = s.granted ++ w :: ws) : RwFair (s.grant (⟨-1, ws⟩, [w])) := by
  obtain ⟨tsk, flags⟩ := w
  obtain rfl : flags = .write := hflags
  refine ⟨⟨.inr ⟨rfl, tsk, ?_⟩, ?_, ?_, ?_⟩, .inl le_rfl⟩ <;> simp [RwSystem.grant, hholders, horder]

theorem RwInv.readers (h : RwInv s) (hw : w ∈ s.holders) (hread : w.flags = .read) :
    s.sem.activity = s.holders.length ∧ AllRead s.holders := by
  refine h.activity.resolve_right ?_
  rintro ⟨-, tsk, hone⟩
  simp [hone] at hw
  simp [hw] at hread

/-- A request that has to wait, since others do, or a writer has the lock, or it is for writing and the lock
is not free. -/
theorem RwInv.enqueue (h : RwInv s)
    (hbusy : s.sem.waitList ≠ [] ∨ s.sem.activity = -1 ∨ w.flags = .write ∧ s.holders ≠ []) :
    RwFair ((s.ask w).grant ({ s.sem with waitList := s.sem.waitList ++ [w] }, [])) := by
  simp only [RwSystem.grant, RwSystem.ask, append_nil]
  refine ⟨⟨h.activity, fun v hv hread => ?_, fun hfree => ?_, ?_⟩, .inl (Nat.zero_le _)⟩
  · have hcount := (h.readers hv hread).1
    cases hqueue : s.sem.waitList with
    | nil =>
      have hwrite : w.flags = .write := by
        rcases hbusy with hne | hneg | hwrite
        · exact absurd hqueue hne
        · omega
        · exact hwrite.1
      simpa [WriterFirst] using hwrite
    | cons u us => simpa [WriterFirst, hqueue] using h.head v hv hread
  · have hempty := h.free hfree
    rcases h.activity with ⟨hcount, -⟩ | ⟨-, tsk, hone⟩
    · simp [hempty, hcount, show s.holders = [] from hfree] at hbusy
    · exact absurd (hone.symm.trans hfree) (cons_ne_nil _ _)
  · simp [h.order]

/-- A request: granted at once, or at the end of the queue. -/
theorem RwInv.down (h : RwInv s) (w : RwsemWaiter τ) : RwFair ((s.ask w).grant (rwDown s.sem w)) := by
  unfold rwDown
  split
  · rename_i hfree
    have hqueue : s.sem.waitList = [] := isEmpty_iff.mp hfree.2
    have hact := hfree.1
    cases hflags : w.flags with
    | read =>
      simp only [hflags, RwFlags.free, decide_eq_true_eq] at hact
      obtain ⟨hcount, hread⟩ := h.activity.resolve_right fun hwrite => by omega
      -- the request is all of a queue
      exact RwFair.readers (s := { s.ask w with sem := ⟨s.sem.activity, [w]⟩ }) hread hcount
        (by simp [RwSystem.ask, h.order, hqueue]) ⟨by simp [AllRead, hflags], rfl, by simp [hqueue],
          by simp [WriterFirst, hqueue]⟩ nofun
    | write =>
      simp only [hflags, RwFlags.free, decide_eq_true_eq] at hact
      obtain ⟨hcount, -⟩ := h.activity.resolve_right fun hwrite => by omega
      have hnone : s.holders = [] := length_eq_zero_iff.mp (by omega)
      exact RwFair.writer (s := s.ask w) hnone hflags (by simp [RwSystem.ask, h.order, hqueue])
  · rename_i hbusy
    refine h.enqueue ?_
    by_contra hnot
    obtain ⟨hqueue, hneg, hwrite⟩ : s.sem.waitList = [] ∧ s.sem.activity ≠ -1 ∧
        (w.flags = .write → s.holders = []) := by simpa using hnot
    obtain ⟨hcount, -⟩ := h.activity.resolve_right fun h => hneg h.1
    cases hflags : w.flags <;> simp_all [RwFlags.free]

/-- A try that succeeds is a request that is granted at once. -/
theorem RwInv.tried (h : RwInv s) (w : RwsemWaiter τ) : RwFair (s.tried w (rwTrylock s.sem w.flags)) := by
  have hdown := h.down w
  unfold rwTrylock
  unfold rwDown at hdown
  split
  · rename_i hfree
    rw [if_pos hfree] at hdown
    exact hdown
  · exact ⟨h, .inl (Nat.zero_le _)⟩

variable [DecidableEq τ] {s' : RwSystem τ} {tsk : τ}

theorem release_eq_some_iff :
    s.release w = some s' ↔ w ∈ s.holders ∧ { s with holders := s.holders.erase w } = s' := by
  simp [RwSystem.release]

/-- `__up_read` hands the lock to the writer at the head of the queue, or to nobody. -/
theorem RwInv.upRead (h : RwInv s) (hs' : s.release ⟨tsk, .read⟩ = some s') :
    RwFair (s'.grant (upRead s.sem)) ∧ ∀ w ∈ (Linux.upRead s.sem).2, w.flags = .write := by
  obtain ⟨htsk, rfl⟩ := release_eq_some_iff.mp hs'
  obtain ⟨hcount, hread⟩ := h.readers htsk rfl
  have hfirst := h.head _ htsk rfl
  have hlen := length_erase_of_mem htsk
  have hpos := length_pos_of_mem htsk
  unfold Linux.upRead
  dsimp only
  split
  · rename_i hlast
    obtain ⟨w, rest, hqueue⟩ := exists_cons_of_ne_nil (mt isEmpty_iff.mpr hlast.2)
    have hwrite : w.flags = .write := hfirst w (by simp [hqueue])
    rw [rwsemWakeOneWriter, hqueue]
    exact ⟨RwFair.writer (length_eq_zero_iff.mp (by dsimp only; omega)) hwrite (hqueue ▸ h.order), by simpa using hwrite⟩
  · rename_i hmore
    refine ⟨RwFair.readers
      (s := { s with sem := ⟨s.sem.activity - 1, s.sem.waitList⟩, holders := s.holders.erase ⟨tsk, .read⟩ })
      (fun w hw => hread w (mem_of_mem_erase hw)) (by dsimp only; omega) h.order (readersWoken_nil hfirst)
      fun hnone _ => ?_, nofun⟩
    by_contra hqueue
    refine hmore ⟨?_, mt isEmpty_iff.mp hqueue⟩
    rw [show s.holders.erase ⟨tsk, .read⟩ = [] from hnone, length_nil] at hlen
    omega

section

variable (h : RwInv s) (hs' : s.release ⟨tsk, .write⟩ = some s')
include h hs'

theorem RwInv.writer : s' = { s with holders := [] } := by
  obtain ⟨htsk, rfl⟩ := release_eq_some_iff.mp hs'
  rcases h.activity with ⟨-, hread⟩ | ⟨-, tsk', hone⟩
  · exact absurd (hread _ htsk) RwFlags.noConfusion
  · simp only [hone, mem_singleton] at htsk
    simp [hone, htsk]

theorem RwInv.upWrite : RwFair (s'.grant (upWrite s.sem)) := by
  obtain rfl := h.writer hs'
  rw [Linux.upWrite, wake_eq]
  rcases rwsemDoWake_spec { s.sem with activity := 0 } true with
    ⟨-, w, rest, hwrite, hqueue, hr⟩ | ⟨hread, hall⟩
  · rw [hr]
    exact RwFair.writer rfl hwrite (hqueue ▸ h.order)
  · exact RwFair.readers (s := { s with sem := ⟨0, s.sem.waitList⟩, holders := [] }) nofun rfl h.order hread
      fun _ => hall rfl

theorem RwInv.downgradeWrite :
    RwFair ({ s' with holders := ⟨tsk, .read⟩ :: s'.holders }.grant (downgradeWrite s.sem)) := by
  obtain rfl := h.writer hs'
  rw [Linux.downgradeWrite, wake_eq]
  rcases rwsemDoWake_spec { s.sem with activity := 1 } false with ⟨hwake, -⟩ | ⟨hread, -⟩
  · exact absurd hwake Bool.false_ne_true
  · exact RwFair.readers (s := { s with sem := ⟨1, s.sem.waitList⟩, holders := [⟨tsk, .read⟩] })
      (by simp [AllRead]) rfl h.order hread nofun

end

theorem RwInv.step (h : RwInv s) {op : RwOp τ} {p : List (RwsemWaiter τ) × RwSystem τ}
    (hp : rwStep s op = some p) : RwFair p := by
  cases op with
  | downRead tsk => exact some.inj hp ▸ h.down ⟨tsk, .read⟩
  | downReadTrylock tsk => exact some.inj hp ▸ h.tried ⟨tsk, .read⟩
  | downWrite tsk => exact some.inj hp ▸ h.down ⟨tsk, .write⟩
  | downWriteTrylock tsk => exact some.inj hp ▸ h.tried ⟨tsk, .write⟩
  | upRead tsk =>
    obtain ⟨s', hs', rfl⟩ := map_eq_some_iff.mp hp
    exact (h.upRead hs').1
  | upWrite tsk =>
    obtain ⟨s', hs', rfl⟩ := map_eq_some_iff.mp hp
    exact h.upWrite hs'
  | downgradeWrite tsk =>
    obtain ⟨s', hs', rfl⟩ := map_eq_some_iff.mp hp
    exact h.downgradeWrite hs'

/-- **The semaphore excludes, is fair and forgets nobody.** After every interleaving of the calls of any
tasks the invariant holds; whoever `__up_read` wakes is a writer; and each call grants one request at most,
or all the neighbouring readers at the head of the queue. -/
theorem rwsem_fair (ops : List (RwOp τ)) {q : List (List (RwsemWaiter τ)) × RwSystem τ}
    (h : Runs.run rwStep initRwsem ops = some q) :
    RwInv q.2 ∧ (∀ tsk p, rwStep q.2 (.upRead tsk) = some p → ∀ w ∈ p.1, w.flags = .write) ∧
      ∀ op p, rwStep q.2 op = some p → RwFair p := by
  have hinit : RwInv (initRwsem : RwSystem τ) := ⟨.inl ⟨rfl, nofun⟩, nofun, fun _ => rfl, rfl⟩
  have hinv : RwInv q.2 := Runs.run_invariant (P := fun _ => True)
    (fun _ _ _ hs _ hp => (hs.step hp).1) hinit (fun _ _ => trivial) h
  refine ⟨hinv, fun tsk p hp => ?_, fun op p hp => hinv.step hp⟩
  obtain ⟨s', hs', rfl⟩ := map_eq_some_iff.mp hp
  exact (hinv.upRead hs').2

/-- A writer among readers: it gets the lock when the readers before it are gone, and when it is done the
readers behind it get it together. -/
def mixedCalls : List (RwOp Nat) :=
  [.downWrite 0, .downRead 1, .downWrite 2, .downRead 3, .downRead 4, .downgradeWrite 0, .downReadTrylock 5,
    .upRead 0, .upRead 1, .upWrite 2]

theorem rwsem_fair_mixed : ∃ q, Runs.run rwStep initRwsem mixedCalls = some q ∧
      q.1 = [[⟨0, .write⟩], [], [], [], [], [⟨1, .read⟩], [], [], [⟨2, .write⟩], [⟨3, .read⟩, ⟨4, .read⟩]] ∧
      RwInv q.2 :=
  ⟨_, rfl, rfl, (rwsem_fair mixedCalls rfl).1⟩

end Linux
