/-
# MipsOnQemu.Linux.SemAtomic -- semaphore operations are done all or not at all

`tryAtomicSemop` either does the whole list (`SemArray.complete`) or leaves the set alone. Going
through the pending queue is a chain of answers (`Answered`), and at its end nobody is left in the
queue who could go on: completing a list that does not alter the set changes nothing for those before
it, and after any other the queue is gone through from its head.
-/

import MipsOnQemu.Linux.Sem
import MipsOnQemu.Lib.Runs

namespace Linux

open List Function

/-! ## One list -/

/-- What a list adds to a semaphore. -/
def opSum (sops : List Sembuf) (n : Nat) : Int :=
  (sops.map fun sop => if sop.semNum = n then sop.semOp else 0).sum

/-- What it adds with `SEM_UNDO`. -/
def undoSum (sops : List Sembuf) (n : Nat) : Int :=
  (sops.map fun sop => if sop.semNum = n ∧ sop.semUndo then sop.semOp else 0).sum

/-- The set after a list. -/
def SemArray.complete (sma : SemArray) (sops : List Sembuf) (un : Option Nat) : SemArray :=
  { sma with
    semval := fun n => sma.semval n + opSum sops n
    undo := sma.withUndo un fun adj n => adj n - BitVec.ofInt 16 (undoSum sops n) }

variable (semopm : Nat) (semval : Nat → Int) (sop : Sembuf) (sops : List Sembuf) (semadj : Nat → BitVec 16) (n : Nat)

theorem opSum_cons : opSum (sop :: sops) n = (if sop.semNum = n then sop.semOp else 0) + opSum sops n := by
  unfold opSum
  rw [map_cons, sum_cons]

theorem undoSum_cons : undoSum (sop :: sops) n =
      (if sop.semNum = n ∧ sop.semUndo then sop.semOp else 0) + undoSum sops n := by
  unfold undoSum
  rw [map_cons, sum_cons]

/-- The value of a semaphore is within its limits. -/
def InRange (val : Int) : Prop := 0 ≤ val ∧ val ≤ semvmx

theorem rollback_update (before : List Sembuf) :
    rollback (Function.update semval sop.semNum (semval sop.semNum + sop.semOp)) (sop :: before) =
      rollback semval before := by
  rw [rollback, update_self, add_sub_cancel_right, update_idem, update_eq_self]

theorem wouldBlock_ne_done : wouldBlock sop ≠ .done := by
  unfold wouldBlock
  split
  · exact SemResult.noConfusion
  · exact SemResult.noConfusion

theorem tryOps_spec (sops : List Sembuf) (semval : Nat → Int) (before : List Sembuf) :
    ((tryOps semadj semval before sops).1 = .done →
      (tryOps semadj semval before sops).2 = (fun n => semval n + opSum sops n) ∧
      ∀ n, InRange (semval n) → InRange (semval n + opSum sops n)) ∧
    ((tryOps semadj semval before sops).1 ≠ .done →
      (tryOps semadj semval before sops).2 = rollback semval before) := by
  induction sops generalizing semval before with
  | nil =>
    refine ⟨fun _ => ⟨?_, fun n hn => ?_⟩, fun h => absurd rfl h⟩
    · funext n
      exact (add_zero _).symm
    · exact (add_zero (semval n)).symm ▸ hn
  | cons sop rest ih =>
    have hblock := wouldBlock_ne_done sop
    unfold tryOps
    dsimp only
    split
    · exact ⟨fun h => absurd h hblock, fun _ => rfl⟩
    split
    · exact ⟨fun h => absurd h hblock, fun _ => rfl⟩
    split
    · exact ⟨fun h => absurd h SemResult.noConfusion, fun _ => rfl⟩
    split
    · exact ⟨fun h => absurd h SemResult.noConfusion, fun _ => rfl⟩
    rename_i hlow hhigh _
    obtain ⟨hdone, hback⟩ := ih (update semval sop.semNum (semval sop.semNum + sop.semOp))
      (sop :: before)
    have hsum : ∀ n, update semval sop.semNum (semval sop.semNum + sop.semOp) n +
        opSum rest n = semval n + opSum (sop :: rest) n := by
      intro n
      rw [opSum_cons]
      by_cases hn : n = sop.semNum
      · subst hn
        rw [update_self, if_pos rfl, add_assoc]
      · rw [update_of_ne hn, if_neg (Ne.symm hn), zero_add]
    refine ⟨fun h => ?_, fun h => ?_⟩
    · obtain ⟨hval, hrange⟩ := hdone h
      refine ⟨hval.trans (funext hsum), fun n hn => ?_⟩
      rw [← hsum n]
      apply hrange n
      by_cases heq : n = sop.semNum
      · subst heq
        rw [update_self]
        exact ⟨not_lt.mp hlow, not_lt.mp hhigh⟩
      · rw [update_of_ne heq]
        exact hn
    · rw [hback h, rollback_update]

theorem adjust_eq : adjust semadj sops n = semadj n - BitVec.ofInt 16 (undoSum sops n) := by
  induction sops generalizing semadj with
  | nil => exact (BitVec.sub_zero _).symm
  | cons sop before ih =>
    rw [adjust, ih, undoSum_cons]
    by_cases hundo : sop.semUndo
    · rw [if_pos hundo]
      by_cases hn : n = sop.semNum
      · subst hn
        rw [update_self, if_pos ⟨rfl, hundo⟩, BitVec.ofInt_add]
        ring
      · rw [update_of_ne hn, if_neg fun h => hn h.1.symm, zero_add]
    · rw [if_neg hundo, if_neg fun h => hundo h.2, zero_add]

theorem undoSum_reverse : undoSum sops.reverse n = undoSum sops n := by
  unfold undoSum
  rw [map_reverse, sum_reverse]

/-- **`try_atomic_semop` does the whole list or nothing.** -/
theorem tryAtomicSemop_spec (sma : SemArray) (sops : List Sembuf) (un : Option Nat) :
    ((tryAtomicSemop sma sops un).1 = .done ∧ (tryAtomicSemop sma sops un).2 = sma.complete sops un ∧
        ∀ n, InRange (sma.semval n) → InRange (sma.semval n + opSum sops n)) ∨
      ((tryAtomicSemop sma sops un).1 ≠ .done ∧ (tryAtomicSemop sma sops un).2 = sma) := by
  obtain ⟨hdone, hback⟩ := tryOps_spec (sma.semadj un) sops sma.semval []
  unfold tryAtomicSemop
  dsimp only
  by_cases h : (tryOps (sma.semadj un) sma.semval [] sops).1 = .done
  · rw [if_pos h, (hdone h).1]
    refine .inl ⟨rfl, ?_, (hdone h).2⟩
    have hadjust : (fun adj => adjust adj sops.reverse) =
        fun (adj : Nat → BitVec 16) n => adj n - BitVec.ofInt 16 (undoSum sops n) := by
      funext adj n
      rw [adjust_eq, undoSum_reverse]
    rw [hadjust]
    rfl
  · rw [if_neg h, hback h]
    exact .inr ⟨h, rfl⟩

variable {sma : SemArray}

theorem complete_of_not_alters {sops : List Sembuf} (un : Option Nat)
    (h : alters sops = false) : sma.complete sops un = sma := by
  have hzero : ∀ sop ∈ sops, sop.semOp = 0 := by
    intro sop hsop
    have hbne := any_eq_false.mp h sop hsop
    simpa using hbne
  have hsum : ∀ (p : Sembuf → Prop) [DecidablePred p], (sops.map fun s => if p s then s.semOp else 0).sum = 0 := by
    intro p _
    exact sum_eq_zero (forall_mem_map.mpr fun sop hsop => by rw [hzero sop hsop, ite_self])
  have hop : ∀ n, opSum sops n = 0 := fun n => hsum _
  have hundo : ∀ n, undoSum sops n = 0 := fun n => hsum _
  have hsub : ∀ x : BitVec 16, x - BitVec.ofInt 16 0 = x := BitVec.sub_zero
  unfold SemArray.complete SemArray.withUndo
  simp only [hop, hundo, add_zero, hsub, ite_self, map_id']

/-! ## The queue -/

/-- The values and adjustments of a set are those of another. -/
def SameValues (sma sma' : SemArray) : Prop :=
  sma'.semval = sma.semval ∧ ∀ un, sma'.semadj un = sma.semadj un

theorem SameValues.refl (sma : SemArray) : SameValues sma sma := ⟨rfl, fun _ => rfl⟩

variable {sma' : SemArray}

theorem SameValues.trans {sma'' : SemArray} (h : SameValues sma sma')
    (h' : SameValues sma' sma'') : SameValues sma sma'' :=
  ⟨h'.1.trans h.1, fun un => (h'.2 un).trans (h.2 un)⟩

theorem tryAtomicSemop_congr (h : SameValues sma sma') (sops : List Sembuf)
    (un : Option Nat) : (tryAtomicSemop sma' sops un).1 = (tryAtomicSemop sma sops un).1 := by
  unfold tryAtomicSemop
  rw [h.1, h.2 un]
  dsimp only
  split
  · rfl
  · rfl

/-- **A chain of answers** to requests of the queue. -/
inductive Answered : SemArray → List SemTry → SemArray → Prop
  | nil (sma : SemArray) : Answered sma [] sma
  | cons {sma sma' : SemArray} {log : List SemTry} {q : SemQueue} {pending : List SemQueue} :
      q ∈ sma.pending → pending ⊆ sma.pending →
      (tryAtomicSemop sma q.sops q.undo).1 ≠ .sleep →
      Answered { (tryAtomicSemop sma q.sops q.undo).2 with pending := pending } log sma' →
      Answered sma (⟨sma, q.sops, q.undo, (tryAtomicSemop sma q.sops q.undo).1⟩ :: log) sma'

/-- Nobody in the queue could go on. -/
def SemArray.Settled (sma : SemArray) : Prop :=
  ∀ q ∈ sma.pending, (tryAtomicSemop sma q.sops q.undo).1 = .sleep

theorem SemArray.Settled.of_subset (h : sma.Settled) (hsame : SameValues sma sma')
    (hpending : sma'.pending ⊆ sma.pending) : sma'.Settled :=
  fun q hq => (tryAtomicSemop_congr hsame q.sops q.undo).trans (h q (hpending hq))

theorem tryAtomicSemop_sleep {sops : List Sembuf} {un : Option Nat}
    (h : (tryAtomicSemop sma sops un).1 = .sleep) : (tryAtomicSemop sma sops un).2 = sma := by
  rcases tryAtomicSemop_spec sma sops un with ⟨hdone, -⟩ | ⟨-, heq⟩
  · rw [h] at hdone
    cases hdone
  · exact heq

/-- **The loop of `update_queue`**, from the request behind `before` on, when those in `before` cannot
go on. -/
theorem scanQueue_spec {restart : SemArray → SemArray × List SemTry} {bound : Nat}
    (hrestart : ∀ sma, sma.pending.length < bound →
      Answered sma (restart sma).2 (restart sma).1 ∧ (restart sma).1.Settled)
    {rest : List SemQueue} {before : List SemQueue}
    (hpending : sma.pending = before ++ rest) (hbound : sma.pending.length ≤ bound)
    (hbefore : ∀ q ∈ before, (tryAtomicSemop sma q.sops q.undo).1 = .sleep) :
    Answered sma (scanQueue restart sma before rest).2 (scanQueue restart sma before rest).1 ∧
      (scanQueue restart sma before rest).1.Settled := by
  induction rest generalizing sma before with
  | nil =>
    refine ⟨.nil sma, fun q hq => hbefore q ?_⟩
    rw [scanQueue, hpending, append_nil] at hq
    exact hq
  | cons q rest ih =>
    have hmem : q ∈ sma.pending := by
      rw [hpending]
      exact mem_append_right _ mem_cons_self
    have hsub : before ++ rest ⊆ sma.pending := by
      rw [hpending]
      exact append_subset.mpr ⟨subset_append_left _ _,
        fun x hx => mem_append_right _ (mem_cons_of_mem _ hx)⟩
    have hlen : (before ++ rest).length < sma.pending.length := by
      rw [hpending, length_append, length_append, length_cons]
      omega
    unfold scanQueue
    dsimp only
    by_cases hsleep : (tryAtomicSemop sma q.sops q.undo).1 = .sleep
    · rw [if_pos hsleep, tryAtomicSemop_sleep hsleep]
      refine ih (by rw [hpending, append_assoc]; rfl) hbound ?_
      exact forall_mem_append.mpr ⟨hbefore, forall_mem_singleton.mpr hsleep⟩
    · rw [if_neg hsleep]
      by_cases halter : q.alter = true
      · rw [if_pos halter]
        obtain ⟨hchain, hsettled⟩ := hrestart
          { (tryAtomicSemop sma q.sops q.undo).2 with pending := before ++ rest } (by
            show (before ++ rest).length < bound
            omega)
        exact ⟨.cons hmem hsub hsleep hchain, hsettled⟩
      · -- done or failed, the values and adjustments are as they were
        rw [if_neg halter]
        have hsame : (tryAtomicSemop sma q.sops q.undo).2 = sma := by
          rcases tryAtomicSemop_spec sma q.sops q.undo with ⟨-, heq, -⟩ | ⟨-, heq⟩
          · rw [heq]
            exact complete_of_not_alters q.undo (q.alter_eq.symm.trans (Bool.not_eq_true _ ▸ halter))
          · exact heq
        rw [hsame]
        have hvalues : SameValues sma { sma with pending := before ++ rest } := ⟨rfl, fun _ => rfl⟩
        have hstep := ih rfl (show (before ++ rest).length ≤ bound by omega) fun q' hq' =>
          (tryAtomicSemop_congr hvalues q'.sops q'.undo).trans (hbefore q' hq')
        refine ⟨.cons hmem hsub hsleep ?_, hstep.2⟩
        rw [hsame]
        exact hstep.1

theorem updateRounds_spec {rounds : Nat} (h : sma.pending.length < rounds) :
    Answered sma (updateRounds rounds sma).2 (updateRounds rounds sma).1 ∧
      (updateRounds rounds sma).1.Settled := by
  induction rounds generalizing sma with
  | zero => omega
  | succ rounds ih =>
    exact scanQueue_spec (fun sma hlt => ih hlt) rfl (by omega) nofun

/-- **`update_queue`** gives answers until nobody is left who could go on. -/
theorem updateQueue_spec (sma : SemArray) :
    Answered sma (updateQueue sma).2 (updateQueue sma).1 ∧ (updateQueue sma).1.Settled :=
  updateRounds_spec (Nat.lt_succ_self _)

/-! ## The calls -/

/-- What a call is to do: if it does not succeed, all values stay, and after it nobody in the queue could
go on. -/
def Atomic (sma : SemArray) (r : SemResult × SemArray × List SemTry) : Prop :=
  (r.1 ≠ .done → SameValues sma r.2.1) ∧ r.2.1.Settled

section Calls

variable {sma : SemArray}

theorem findUndo_spec {owner : Nat} {alloc : Bool} (h : findUndo sma owner alloc = some sma') :
    SameValues sma sma' ∧ sma'.pending = sma.pending := by
  unfold findUndo at h
  split at h
  · cases h
    exact ⟨⟨rfl, fun _ => rfl⟩, rfl⟩
  rename_i hnew
  split at h
  · cases h
    refine ⟨⟨rfl, fun un => ?_⟩, rfl⟩
    unfold SemArray.semadj
    by_cases howner : some owner = un
    · subst howner
      have hnone : sma.undo.find? (fun u => some u.owner == some owner) = none := by
        rw [List.find?_eq_none]
        intro u hu heq
        exact hnew (mem_map.mpr ⟨u, hu, by simpa using heq⟩)
      rw [hnone, List.find?_cons_of_pos (by simp)]
    · rw [List.find?_cons_of_neg (by simpa using howner)]
  · cases h

theorem mem_enqueue {q new : SemQueue} (h : q ∈ (enqueue sma new).pending) : q = new ∨ q ∈ sma.pending := by
  unfold enqueue at h
  dsimp only at h
  split at h
  · rw [← mem_cons]
    exact (perm_append_singleton new _).mem_iff.mp h
  · exact mem_cons.mp h

/-- `semop`, once its undo structure is there. -/
theorem semop_atomic (h : sma.Settled) (task owner : Nat) (sops : List Sembuf) (permitted : Bool) :
    Atomic sma (semop sma task owner sops permitted) := by
  unfold semop
  dsimp only
  split
  · exact ⟨fun _ => .refl sma, h⟩
  split
  · exact ⟨fun _ => .refl sma, h⟩
  split
  · -- the new request has just been tried
    rename_i hsleep
    rw [tryAtomicSemop_sleep hsleep]
    refine ⟨fun _ => ⟨rfl, fun _ => rfl⟩, fun q hq => ?_⟩
    have hsame : SameValues sma (enqueue sma ⟨task, sops, undoOf sops owner, alters sops, rfl,
      undoOf_isSome sops owner⟩) := ⟨rfl, fun _ => rfl⟩
    refine (tryAtomicSemop_congr hsame q.sops q.undo).trans ?_
    rcases mem_enqueue hq with rfl | hq
    · exact hsleep
    · exact h q hq
  · rcases tryAtomicSemop_spec sma sops (undoOf sops owner) with ⟨hdone, heq, -⟩ | ⟨hfail, heq⟩
    · refine ⟨fun hne => absurd hdone hne, ?_⟩
      split
      · exact (updateQueue_spec _).2
      · rename_i halter
        have hsame : alters sops = false := by
          rw [← Bool.not_eq_true]
          exact fun ha => halter ⟨ha, hdone⟩
        rw [heq, complete_of_not_alters _ hsame]
        exact h
    · rw [if_neg fun hc => hfail hc.2, heq]
      exact ⟨fun _ => .refl sma, h⟩

theorem semtimedop_atomic (h : sma.Settled) (task owner : Nat) (sops : List Sembuf) (alloc permitted : Bool) :
    Atomic sma (semtimedop semopm sma task owner sops alloc permitted) := by
  unfold semtimedop
  split
  · exact ⟨fun _ => .refl sma, h⟩
  split
  · exact ⟨fun _ => .refl sma, h⟩
  split
  · split
    · exact ⟨fun _ => .refl sma, h⟩
    · rename_i sma' hfind
      obtain ⟨hsame, hpending⟩ := findUndo_spec hfind
      obtain ⟨hvalues, hsettled⟩ := semop_atomic (h.of_subset hsame fun q hq => hpending ▸ hq)
        task owner sops permitted
      exact ⟨fun hne => hsame.trans (hvalues hne), hsettled⟩
  · exact semop_atomic h task owner sops permitted

theorem setval_atomic (h : sma.Settled) (semnum val : Int) (permitted : Bool) :
    Atomic sma (setval sma semnum val permitted) := by
  unfold setval
  split
  · exact ⟨fun _ => .refl sma, h⟩
  split
  · exact ⟨fun _ => .refl sma, h⟩
  split
  · exact ⟨fun _ => .refl sma, h⟩
  · exact ⟨fun hne => absurd rfl hne, (updateQueue_spec _).2⟩

theorem setall_atomic (h : sma.Settled) (vals : Nat → Nat) (permitted : Bool) :
    Atomic sma (setall sma vals permitted) := by
  unfold setall
  split
  · exact ⟨fun _ => .refl sma, h⟩
  split
  · exact ⟨fun _ => .refl sma, h⟩
  · exact ⟨fun hne => absurd rfl hne, (updateQueue_spec _).2⟩

theorem exitSem_atomic (h : sma.Settled) (owner : Nat) : Atomic sma (exitSem sma owner) := by
  unfold exitSem
  split
  · exact ⟨fun _ => .refl sma, h⟩
  · exact ⟨fun hne => absurd rfl hne, (updateQueue_spec _).2⟩

theorem SemCall.perform_atomic (h : sma.Settled) (call : SemCall) : Atomic sma (call.perform semopm sma) := by
  cases call with
  | semtimedop task owner sops alloc permitted =>
    exact semtimedop_atomic semopm h task owner sops alloc permitted
  | wake task timedOut =>
    exact ⟨fun _ => ⟨rfl, fun _ => rfl⟩, h.of_subset ⟨rfl, fun _ => rfl⟩ eraseP_subset⟩
  | setval semnum val permitted => exact setval_atomic h semnum val permitted
  | setall vals permitted => exact setall_atomic h vals permitted
  | exit owner => exact exitSem_atomic h owner

end Calls

/-- **Operation lists are atomic, and no sleeper is forgotten:** a list that is not done leaves the set
as it was, and in every run of calls a call that does not succeed leaves all values and adjustments,
and after each call every request in the queue has to wait. -/
theorem semaphore_calls_atomic (semopm nsems : Nat) (calls : List SemCall) :
    (∀ sma sops un, (tryAtomicSemop sma sops un).1 ≠ .done → (tryAtomicSemop sma sops un).2 = sma) ∧
    ∃ rs sma', Runs.run (SemCall.exec semopm) (newary nsems) calls = some (rs, sma') ∧
      Runs.Allows (fun s call r s' => SemCall.exec semopm s call = some (r, s') ∧ Atomic s (r.1, s', r.2))
        (newary nsems) calls rs sma' := by
  constructor
  · intro sma sops un hne
    rcases tryAtomicSemop_spec sma sops un with ⟨hdone, -⟩ | ⟨-, heq⟩
    · exact absurd hdone hne
    · exact heq
  · have hstep : ∀ (s t : SemArray) (call : SemCall), (t = s ∧ s.Settled) → True →
        ∃ r s' t', call.exec semopm s = some (r, s') ∧
          (call.exec semopm t = some (r, t') ∧ Atomic t (r.1, t', r.2)) ∧ t' = s' ∧ s'.Settled := by
      rintro _ s call ⟨rfl, hsettled⟩ -
      have hatomic := SemCall.perform_atomic semopm hsettled call
      exact ⟨_, _, _, rfl, ⟨rfl, hatomic⟩, rfl, hatomic.2⟩
    obtain ⟨rs, sma', t', hrun, hallows, heq, -⟩ :=
      Runs.run_refines (R := fun (s t : SemArray) => t = s ∧ s.Settled) hstep
        ⟨rfl, fun q hq => absurd hq not_mem_nil⟩ (Runs.along_of_forall (fun _ _ => trivial) (newary nsems))
    exact ⟨rs, sma', hrun, heq ▸ hallows⟩

end Linux
