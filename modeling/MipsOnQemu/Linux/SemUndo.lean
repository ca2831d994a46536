/-
# MipsOnQemu.Linux.SemUndo -- undo adjustments

What `SEM_UNDO` is to conserve: the adjustment of a process is the opposite of what it did with
`SEM_UNDO` to a semaphore since its value was last set, and the value plus all adjustments changes
only by operations without `SEM_UNDO`, by setting it, and where the exit of a process would take it out
of its limits. Adjustments have 16 bits; `try_atomic_semop` compares each operation of a list with the
adjustment from before the list, so a list that names a semaphore several times can bring it out of
that range. Runs in which no list that is done does so conserve.
-/

import MipsOnQemu.Linux.SemAtomic

namespace Linux

open List Function SemCall SemArray Linux

/-! ## Conservation -/

/-- What a list adds to a semaphore without `SEM_UNDO`. -/
def plainSum (sops : List Sembuf) (n : Nat) : Int :=
  (sops.map fun sop => if sop.semNum = n ∧ sop.semUndo = false then sop.semOp else 0).sum

/-- The value of a semaphore and all adjustments to it. -/
def SemArray.total (sma : SemArray) (n : Nat) : Int :=
  sma.semval n + (sma.undo.map fun u => (u.semadj n).toInt).sum

/-- **Where 16 bits are enough:** a list that is done leaves the exact adjustments in their range. -/
def SemTry.Fits (t : SemTry) : Prop :=
  t.result = .done → ∀ n, -semaem - 1 ≤ (t.sma.semadj t.undo n).toInt - undoSum t.sops n ∧
    (t.sma.semadj t.undo n).toInt - undoSum t.sops n ≤ semaem

/-- What each owner has done with `SEM_UNDO`, after one more answer. -/
def note (done : Nat → Nat → Int) (t : SemTry) : Nat → Nat → Int :=
  if t.result = .done then fun owner n => done owner n + if t.undo = some owner then undoSum t.sops n else 0
  else done

/-- What the lists that were done have added without `SEM_UNDO`. -/
def plainLog (log : List SemTry) (n : Nat) : Int :=
  (log.map fun t => if t.result = .done then plainSum t.sops n else 0).sum

namespace SemCall

/-- A task that sleeps does not exit. -/
def Legal (sma : SemArray) : SemCall → Prop
  | .exit owner => ∀ q ∈ sma.pending, q.undo ≠ some owner
  | _ => True

/-- Every list that is done in a call fits. -/
def Fits (semopm : Nat) (sma : SemArray) (call : SemCall) : Prop :=
  ∀ t ∈ (call.perform semopm sma).2.2, t.Fits

/-- What a call forgets of the past. -/
def forget (result : SemResult) (done : Nat → Nat → Int) : SemCall → Nat → Nat → Int
  | .setval semnum _ _ => fun owner n => if result = .done ∧ (n : Int) = semnum then 0 else done owner n
  | .setall _ _ => fun owner n => if result = .done then 0 else done owner n
  | .exit owner' => fun owner n => if owner = owner' then 0 else done owner n
  | _ => done

/-- What each owner has done with `SEM_UNDO` since the value was last set, after one more call. -/
def record (call : SemCall) (r : SemResult × List SemTry) (done : Nat → Nat → Int) : Nat → Nat → Int :=
  r.2.foldl note (call.forget r.1 done)

/-- The calls that may change a total: the value is set, or an exit takes it out of its limits. -/
def Sets (sma : SemArray) (n : Nat) : SemCall → Prop
  | .setval semnum _ _ => (n : Int) = semnum
  | .setall _ _ => True
  | .exit owner => ∃ u ∈ sma.undo, u.owner = owner ∧ ¬ InRange (sma.semval n + (u.semadj n).toInt)
  | _ => False

/-- **What a call is to conserve**, with the record of what was done before it. -/
structure Conserves (semopm : Nat) (s : SemArray × (Nat → Nat → Int)) (call : SemCall)
    (r : SemResult × List SemTry) (s' : SemArray × (Nat → Nat → Int)) : Prop where
  exec : call.exec semopm s.1 = some (r, s'.1)
  record : s'.2 = call.record r s.2
  range : ∀ n < s'.1.nsems, InRange (s'.1.semval n)
  exact : ∀ u ∈ s'.1.undo, ∀ n < s'.1.nsems, (u.semadj n).toInt = -s'.2 u.owner n
  total : ∀ n < s.1.nsems, ¬ call.Sets s.1 n → s'.1.total n = s.1.total n + plainLog r.2 n

end SemCall

/-! ## One list -/

theorem plainSum_add_undoSum (sops : List Sembuf) (n : Nat) :
    opSum sops n = plainSum sops n + undoSum sops n := by
  induction sops with
  | nil => rfl
  | cons sop sops ih =>
    have hplain : plainSum (sop :: sops) n =
        (if sop.semNum = n ∧ sop.semUndo = false then sop.semOp else 0) + plainSum sops n := by
      unfold plainSum
      rw [map_cons, sum_cons]
    rw [opSum_cons, undoSum_cons, hplain, ih]
    by_cases hn : sop.semNum = n
    · cases hundo : sop.semUndo
      · simp only [hn, true_and, if_true, Bool.false_eq_true, if_false]
        ring
      · simp only [hn, true_and, if_true, Bool.true_eq_false, if_false]
        ring
    · simp only [hn, false_and, if_false]
      ring

variable {sops : List Sembuf} {owner : Nat} {sma' : SemArray} {permitted : Bool}

theorem undoSum_of_not_undos (h : undos sops = false) (n : Nat) : undoSum sops n = 0 := by
  apply sum_eq_zero
  intro x hx
  obtain ⟨sop, hsop, rfl⟩ := mem_map.mp hx
  exact if_neg fun hc => any_eq_false.mp h sop hsop hc.2

theorem toInt_sub_ofInt {x : BitVec 16} {k : Int} (hlow : -semaem - 1 ≤ x.toInt - k)
    (hhigh : x.toInt - k ≤ semaem) : (x - BitVec.ofInt 16 k).toInt = x.toInt - k := by
  unfold semaem semvmx at *
  rw [BitVec.toInt_sub, BitVec.toInt_ofInt, Int.sub_bmod_bmod]
  exact Int.bmod_eq_of_le (by norm_num; omega) (by norm_num; omega)

/-- The undo structures of different owners are different. -/
def SemArray.owners (sma : SemArray) : List Nat := sma.undo.map SemUndo.owner

variable {sma : SemArray} {done : Nat → Nat → Int}

theorem semadj_of_mem (h : sma.owners.Nodup) {u : SemUndo} (hu : u ∈ sma.undo) :
    sma.semadj (some u.owner) = u.semadj := by
  obtain ⟨v, hv⟩ := Option.isSome_iff_exists.mp
    (List.find?_isSome (p := fun v : SemUndo => some v.owner == some u.owner).mpr ⟨u, hu, beq_self_eq_true _⟩)
  have howner : v.owner = u.owner := by simpa using List.find?_some hv
  rw [semadj, hv, inj_on_of_nodup_map h (List.mem_of_find?_eq_some hv) hu howner]

theorem sum_map_owner {l : List SemUndo} (h : (l.map SemUndo.owner).Nodup) {n : Nat}
    (ho : owner ∈ l.map SemUndo.owner) {f : SemUndo → SemUndo} {k : Int}
    (hf : ∀ u ∈ l, u.owner = owner → ((f u).semadj n).toInt = (u.semadj n).toInt - k) :
    ((l.map fun u => if some u.owner = some owner then f u else u).map
      fun u => (u.semadj n).toInt).sum = (l.map fun u => (u.semadj n).toInt).sum - k := by
  induction l with
  | nil => cases ho
  | cons v l ih =>
    rw [map_cons, nodup_cons] at h
    rw [map_cons, map_cons, sum_cons, map_cons, sum_cons]
    by_cases hv : v.owner = owner
    · -- no other structure has this owner
      have hrest : (l.map fun u => if some u.owner = some owner then f u else u) = l := by
        rw [map_congr_left (g := id), map_id]
        intro u hu
        refine if_neg fun heq => h.1 ?_
        rw [hv, ← Option.some.inj heq]
        exact mem_map_of_mem hu
      rw [hrest, if_pos (congrArg some hv), hf v mem_cons_self hv]
      ring
    · rw [if_neg fun heq => hv (Option.some.inj heq), ih h.2 ((mem_cons.mp ho).resolve_left (Ne.symm hv))
          fun u hu => hf u (mem_cons_of_mem _ hu)]
      ring

/-! ## Answers -/

/-- What holds between the calls. -/
structure SemInv (sma : SemArray) (done : Nat → Nat → Int) : Prop where
  owners : sma.owners.Nodup
  pending : ∀ q ∈ sma.pending, ∀ owner, q.undo = some owner → owner ∈ sma.owners
  range : ∀ n < sma.nsems, InRange (sma.semval n)
  exact : ∀ u ∈ sma.undo, ∀ n < sma.nsems, (u.semadj n).toInt = -done u.owner n
  fresh : ∀ owner, owner ∉ sma.owners → ∀ n < sma.nsems, done owner n = 0

theorem owners_complete (sma : SemArray) (sops : List Sembuf) (un : Option Nat) :
    (sma.complete sops un).owners = sma.owners := by
  unfold owners complete withUndo
  rw [map_map]
  apply map_congr_left
  intro u _
  show (if some u.owner = un then _ else u).owner = u.owner
  split
  · rfl
  · rfl

theorem total_complete (h : sma.owners.Nodup) {un : Option Nat}
    (hun : un.isSome = undos sops) (howner : ∀ owner, un = some owner → owner ∈ sma.owners)
    (hfit : ∀ n, -semaem - 1 ≤ (sma.semadj un n).toInt - undoSum sops n ∧
      (sma.semadj un n).toInt - undoSum sops n ≤ semaem) (n : Nat) :
    (sma.complete sops un).total n = sma.total n + plainSum sops n := by
  have hsplit := plainSum_add_undoSum sops n
  unfold total
  show sma.semval n + opSum sops n + ((sma.withUndo un fun adj n =>
    adj n - BitVec.ofInt 16 (undoSum sops n)).map fun u => (u.semadj n).toInt).sum = _
  cases un with
  | none =>
    have hsame : (sma.withUndo none fun adj n => adj n - BitVec.ofInt 16 (undoSum sops n)) =
        sma.undo := by
      unfold withUndo
      rw [map_congr_left (g := id), map_id]
      intro u _
      exact if_neg (Option.some_ne_none _)
    rw [hsame, hsplit, undoSum_of_not_undos hun.symm]
    ring
  | some owner =>
    unfold withUndo
    rw [sum_map_owner h (howner owner rfl) (k := undoSum sops n) fun u hu heq => ?_, hsplit]
    · ring
    · have hadj := hfit n
      rw [← heq, semadj_of_mem h hu] at hadj
      exact toInt_sub_ofInt hadj.1 hadj.2

/-- **One answer** keeps the invariant and the total. -/
theorem SemInv.answer (h : SemInv sma done) {un : Option Nat}
    (hun : un.isSome = undos sops) (howner : ∀ owner, un = some owner → owner ∈ sma.owners)
    (hfit : (⟨sma, sops, un, (tryAtomicSemop sma sops un).1⟩ : SemTry).Fits) :
    SemInv (tryAtomicSemop sma sops un).2
        (note done ⟨sma, sops, un, (tryAtomicSemop sma sops un).1⟩) ∧
      (∀ n, (tryAtomicSemop sma sops un).2.total n = sma.total n +
        if (tryAtomicSemop sma sops un).1 = .done then plainSum sops n else 0) ∧
      (tryAtomicSemop sma sops un).2.nsems = sma.nsems ∧
      (tryAtomicSemop sma sops un).2.pending = sma.pending ∧
      (tryAtomicSemop sma sops un).2.owners = sma.owners := by
  rcases tryAtomicSemop_spec sma sops un with ⟨hdone, heq, hrange⟩ | ⟨hne, heq⟩
  · have hfit' := hfit hdone
    have hnote : note done ⟨sma, sops, un, (tryAtomicSemop sma sops un).1⟩ = fun owner n =>
        done owner n + if un = some owner then undoSum sops n else 0 := if_pos hdone
    rw [heq, hnote, hdone]
    refine ⟨⟨?_, ?_, ?_, ?_, ?_⟩, fun n => ?_, rfl, rfl, owners_complete sma sops un⟩
    · rw [owners_complete]
      exact h.owners
    · rw [owners_complete]
      exact h.pending
    · exact fun n hn => hrange n (h.range n hn)
    · intro u hu n hn
      obtain ⟨v, hv, rfl⟩ := mem_map.mp hu
      have hold := h.exact v hv n hn
      by_cases hvo : some v.owner = un
      · have hadj := hfit' n
        rw [← hvo, semadj_of_mem h.owners hv] at hadj
        rw [if_pos hvo]
        show (v.semadj n - _).toInt = -(done v.owner n + if un = some v.owner then undoSum sops n else 0)
        rw [if_pos hvo.symm, toInt_sub_ofInt hadj.1 hadj.2, hold]
        ring
      · rw [if_neg hvo, if_neg fun heq => hvo heq.symm, add_zero]
        exact hold
    · intro owner ho n hn
      rw [owners_complete] at ho
      show done owner n + (if un = some owner then undoSum sops n else 0) = 0
      rw [if_neg fun heq => ho (howner owner heq), add_zero]
      exact h.fresh owner ho n hn
    · rw [if_pos rfl]
      exact total_complete h.owners hun howner hfit' n
  · have hnote : note done ⟨sma, sops, un, (tryAtomicSemop sma sops un).1⟩ = done := if_neg hne
    rw [heq, hnote]
    refine ⟨h, fun n => ?_, rfl, rfl, rfl⟩
    rw [if_neg hne, add_zero]

theorem SemInv.of_pending (h : SemInv sma done) (pending : List SemQueue)
    (hp : ∀ q ∈ pending, ∀ owner, q.undo = some owner → owner ∈ sma.owners) :
    SemInv { sma with pending := pending } done :=
  ⟨h.owners, hp, h.range, h.exact, h.fresh⟩

theorem plainLog_cons (t : SemTry) (log : List SemTry) (n : Nat) :
    plainLog (t :: log) n = (if t.result = .done then plainSum t.sops n else 0) + plainLog log n := by
  unfold plainLog
  rw [map_cons, sum_cons]

theorem SemInv.answered {log : List SemTry} (hchain : Answered sma log sma')
    (h : SemInv sma done) (hfit : ∀ t ∈ log, t.Fits) :
    SemInv sma' (log.foldl note done) ∧ (∀ n, sma'.total n = sma.total n + plainLog log n) ∧
      sma'.nsems = sma.nsems := by
  induction hchain generalizing done with
  | nil sma => exact ⟨h, fun n => (add_zero _).symm, rfl⟩
  | @cons sma sma' log q pending hq hsub _ _ ih =>
    obtain ⟨hinv, htotal, hnsems, hpending, howners⟩ := h.answer q.undo_isSome (h.pending q hq)
      (hfit _ mem_cons_self)
    have hrest := hinv.of_pending pending fun q' hq' owner hu => by
      rw [howners]
      exact h.pending q' (hsub hq') owner hu
    obtain ⟨hinv', htotal', hnsems'⟩ := ih hrest fun t ht => hfit t (mem_cons_of_mem _ ht)
    refine ⟨hinv', fun n => ?_, hnsems'.trans hnsems⟩
    rw [htotal' n, plainLog_cons, ← add_assoc, ← htotal n]
    rfl

/-! ## The calls -/

/-- A call keeps the invariant, with what it has left of the record, and the totals that it does not
set. -/
structure Kept (sma : SemArray) (done : Nat → Nat → Int) (sets : Nat → Prop)
    (r : SemResult × SemArray × List SemTry) : Prop where
  inv : SemInv r.2.1 (r.2.2.foldl note done)
  total : ∀ n < sma.nsems, ¬ sets n → r.2.1.total n = sma.total n + plainLog r.2.2 n
  nsems : r.2.1.nsems = sma.nsems

section Calls

variable {sma : SemArray} {done : Nat → Nat → Int} {sets : Nat → Prop}

theorem SemInv.kept (h : SemInv sma done) (result : SemResult) : Kept sma done sets (result, sma, []) :=
  ⟨h, fun _ _ _ => (add_zero _).symm, rfl⟩

theorem SemInv.kept_updateQueue (h : SemInv sma' done)
    (htotal : ∀ n < sma.nsems, ¬ sets n → sma'.total n = sma.total n) (hnsems : sma'.nsems = sma.nsems)
    (hfit : ∀ t ∈ (updateQueue sma').2, t.Fits) (result : SemResult) :
    Kept sma done sets (result, updateQueue sma') := by
  obtain ⟨hinv, hsum, hn⟩ := SemInv.answered (updateQueue_spec sma').1 h hfit
  refine ⟨hinv, fun n hlt hset => ?_, hn.trans hnsems⟩
  rw [← htotal n hlt hset]
  exact hsum n

section

variable (h : SemInv sma done)
include h

theorem SemInv.semop {task : Nat} (howner : ∀ o, undoOf sops owner = some o → o ∈ sma.owners)
    (hfit : ∀ t ∈ (semop sma task owner sops permitted).2.2, t.Fits) :
    Kept sma done sets (semop sma task owner sops permitted) := by
  unfold Linux.semop at hfit ⊢
  dsimp only at hfit ⊢
  split
  · exact h.kept _
  split
  · exact h.kept _
  rename_i hmax hperm
  rw [if_neg hmax, if_neg hperm] at hfit
  split
  · rename_i hsleep
    rw [tryAtomicSemop_sleep hsleep]
    refine ⟨h.of_pending _ fun q hq o ho => ?_, fun n _ _ => (add_zero _).symm, rfl⟩
    rcases mem_enqueue hq with rfl | hq
    · exact howner o ho
    · exact h.pending q hq o ho
  · rename_i hsleep
    rw [if_neg hsleep] at hfit
    obtain ⟨hinv, htotal, hnsems, -, -⟩ := h.answer (undoOf_isSome sops owner) howner
      (hfit _ mem_cons_self)
    have hchain : ∀ next : SemArray × List SemTry,
        Answered (tryAtomicSemop sma sops (undoOf sops owner)).2 next.2 next.1 →
        (∀ t ∈ next.2, t.Fits) →
        Kept sma done sets ((tryAtomicSemop sma sops (undoOf sops owner)).1, next.1,
          ⟨sma, sops, undoOf sops owner, (tryAtomicSemop sma sops (undoOf sops owner)).1⟩ :: next.2) := by
      intro next hanswered hfits
      obtain ⟨hinv', htotal', hnsems'⟩ := SemInv.answered hanswered hinv hfits
      refine ⟨hinv', fun n _ _ => ?_, hnsems'.trans hnsems⟩
      rw [plainLog_cons, ← add_assoc, ← htotal n]
      exact htotal' n
    refine hchain _ ?_ fun t ht => hfit t (mem_cons_of_mem _ ht)
    split
    · exact (updateQueue_spec _).1
    · exact .nil _

theorem SemInv.findUndo {alloc : Bool} (hfind : findUndo sma owner alloc = some sma') :
    SemInv sma' done ∧ owner ∈ sma'.owners ∧ (∀ n, sma'.total n = sma.total n) ∧
      sma'.nsems = sma.nsems := by
  unfold Linux.findUndo at hfind
  split at hfind
  · rename_i hmem
    cases hfind
    exact ⟨h, hmem, fun _ => rfl, rfl⟩
  rename_i hnew
  split at hfind
  · cases hfind
    refine ⟨⟨nodup_cons.mpr ⟨hnew, h.owners⟩, fun q hq o ho => ?_, h.range, fun u hu n hn => ?_,
      fun o ho n hn => ?_⟩, mem_cons_self, fun n => ?_, rfl⟩
    · exact mem_cons_of_mem _ (h.pending q hq o ho)
    · rcases mem_cons.mp hu with rfl | hu
      · show (0 : BitVec 16).toInt = -done owner n
        rw [h.fresh owner hnew n hn]
        rfl
      · exact h.exact u hu n hn
    · exact h.fresh o (fun hold => ho (mem_cons_of_mem _ hold)) n hn
    · show sma.semval n + ((0 : BitVec 16).toInt + _) = _
      exact congrArg (sma.semval n + ·) (zero_add _)
  · cases hfind

theorem SemInv.semtimedop {semopm task : Nat} {alloc : Bool}
    (hfit : ∀ t ∈ (semtimedop semopm sma task owner sops alloc permitted).2.2, t.Fits) :
    Kept sma done sets (semtimedop semopm sma task owner sops alloc permitted) := by
  unfold Linux.semtimedop at hfit ⊢
  split
  · exact h.kept _
  split
  · exact h.kept _
  rename_i hempty hmany
  rw [if_neg hempty, if_neg hmany] at hfit
  split
  · rename_i hundos
    rw [if_pos hundos] at hfit
    split
    · exact h.kept _
    · rename_i sma' hfind
      rw [hfind] at hfit
      obtain ⟨hinv, howner, htotal, hnsems⟩ := h.findUndo hfind
      have hkept : Kept sma' done sets (Linux.semop sma' task owner sops permitted) :=
        hinv.semop (fun o ho => by
          unfold undoOf at ho
          rw [if_pos hundos] at ho
          cases ho
          exact howner) hfit
      refine ⟨hkept.inv, fun n hn hset => ?_, hkept.nsems.trans hnsems⟩
      rw [← htotal n]
      exact hkept.total n (hnsems ▸ hn) hset
  · rename_i hundos
    rw [if_neg hundos] at hfit
    refine h.semop (fun o ho => ?_) hfit
    unfold undoOf at ho
    rw [if_neg hundos] at ho
    cases ho

theorem SemInv.kept_failed {call : SemCall} (hcall : ∀ owner, call ≠ .exit owner) (e : SemError) :
    Kept sma (call.forget (.failed e) done) sets (.failed e, sma, []) := by
  have hforget : call.forget (.failed e) done = done := by
    funext owner n
    cases call with
    | setval => simp [forget]
    | setall => simp [forget]
    | exit owner => exact absurd rfl (hcall owner)
    | semtimedop | wake => rfl
  rw [hforget]
  exact h.kept _

theorem SemInv.setval {semnum val : Int} (hfit : ∀ t ∈ (setval sma semnum val permitted).2.2, t.Fits) :
    Kept sma ((SemCall.setval semnum val permitted).forget (setval sma semnum val permitted).1 done)
      ((SemCall.setval semnum val permitted).Sets sma · ) (setval sma semnum val permitted) := by
  unfold Linux.setval at hfit ⊢
  split
  · exact h.kept_failed (by nofun) _
  split
  · exact h.kept_failed (by nofun) _
  split
  · exact h.kept_failed (by nofun) _
  rename_i hperm hnum hval
  rw [if_neg hperm, if_neg hnum, if_neg hval] at hfit
  obtain ⟨m, rfl⟩ := Int.eq_ofNat_of_zero_le (show 0 ≤ semnum by omega)
  refine SemInv.kept_updateQueue ⟨?_, ?_, ?_, ?_, ?_⟩ ?_ ?_ hfit _
  · show ((sma.undo.map _).map SemUndo.owner).Nodup
    rw [map_map]
    exact h.owners
  · show ∀ q ∈ sma.pending, ∀ owner, q.undo = some owner → owner ∈ (sma.undo.map _).map SemUndo.owner
    rw [map_map]
    exact h.pending
  · intro n hn
    show InRange (update sma.semval m val n)
    by_cases hnm : n = m
    · subst hnm
      rw [update_self]
      exact ⟨not_lt.mp fun hlt => hval (.inr hlt), not_lt.mp fun hlt => hval (.inl hlt)⟩
    · rw [update_of_ne hnm]
      exact h.range n hn
  · intro u hu n hn
    obtain ⟨v, hv, rfl⟩ := mem_map.mp hu
    show (update v.semadj m 0 n).toInt =
      -(if SemResult.done = .done ∧ (n : Int) = (m : Int) then 0 else done v.owner n)
    by_cases hnm : n = m
    · subst hnm
      rw [update_self, if_pos ⟨rfl, rfl⟩]
      rfl
    · rw [update_of_ne hnm, if_neg fun hc => hnm (Int.ofNat.inj hc.2)]
      exact h.exact v hv n hn
  · intro owner ho n hn
    show (if SemResult.done = .done ∧ (n : Int) = (m : Int) then 0 else done owner n) = 0
    split
    · rfl
    · refine h.fresh owner (fun hmem => ho ?_) n hn
      show owner ∈ (sma.undo.map _).map SemUndo.owner
      rw [map_map]
      exact hmem
  · intro n _ hset
    have hnm : n ≠ m := fun heq => hset (congrArg Int.ofNat heq)
    show update sma.semval m val n + ((sma.undo.map _).map _).sum = _
    rw [update_of_ne hnm, map_map]
    refine congrArg (fun l => sma.semval n + sum l) (map_congr_left fun u _ => ?_)
    exact congrArg BitVec.toInt (update_of_ne hnm _ _)
  · rfl

theorem SemInv.setall {vals : Nat → Nat} (hfit : ∀ t ∈ (setall sma vals permitted).2.2, t.Fits) :
    Kept sma ((SemCall.setall vals permitted).forget (setall sma vals permitted).1 done)
      ((SemCall.setall vals permitted).Sets sma · ) (setall sma vals permitted) := by
  unfold Linux.setall at hfit ⊢
  split
  · exact h.kept_failed (by nofun) _
  split
  · exact h.kept_failed (by nofun) _
  rename_i hperm hval
  rw [if_neg hperm, if_neg hval] at hfit
  refine SemInv.kept_updateQueue ⟨?_, ?_, ?_, ?_, ?_⟩ (fun n _ hset => absurd trivial hset) ?_ hfit _
  · show ((sma.undo.map _).map SemUndo.owner).Nodup
    rw [map_map]
    exact h.owners
  · show ∀ q ∈ sma.pending, ∀ owner, q.undo = some owner → owner ∈ (sma.undo.map _).map SemUndo.owner
    rw [map_map]
    exact h.pending
  · intro n hn
    show InRange (if n < sma.nsems then (vals n : Int) else sma.semval n)
    rw [if_pos hn]
    exact ⟨Int.natCast_nonneg _, not_lt.mp fun hlt => hval ⟨n, hn, hlt⟩⟩
  · intro u hu n hn
    obtain ⟨v, hv, rfl⟩ := mem_map.mp hu
    show (if n < sma.nsems then (0 : BitVec 16) else v.semadj n).toInt =
      -(if SemResult.done = .done then 0 else done v.owner n)
    rw [if_pos hn, if_pos rfl]
    rfl
  · intro owner _ n _
    show (if SemResult.done = .done then 0 else done owner n) = 0
    exact if_pos rfl
  · rfl

end

theorem clamp_inRange (val : Int) : InRange (clamp val) := by
  unfold InRange clamp semvmx
  dsimp only
  split
  · split
    · omega
    · omega
  · split
    · omega
    · omega

theorem clamp_of_inRange {val : Int} (h : InRange val) : clamp val = val := by
  unfold clamp
  rw [if_neg (not_lt.mpr h.1), if_neg (not_lt.mpr h.2)]

theorem SemInv.exitSem (h : SemInv sma done) (hlegal : ∀ q ∈ sma.pending, q.undo ≠ some owner)
    (hfit : ∀ t ∈ (exitSem sma owner).2.2, t.Fits) : Kept sma ((exit owner).forget (exitSem sma owner).1 done)
      ((exit owner).Sets sma · ) (exitSem sma owner) := by
  unfold Linux.exitSem at hfit ⊢
  split
  · rename_i hnone
    -- without a structure there is nothing to forget
    have hforget : (exit owner).forget .done done = fun o n => if o = owner then 0 else done o n :=
      rfl
    have hnot : owner ∉ sma.owners := by
      intro hmem
      obtain ⟨u, hu, hown⟩ := mem_map.mp hmem
      exact List.find?_eq_none.mp hnone u hu (by simpa using hown)
    rw [hforget]
    refine SemInv.kept ⟨h.owners, h.pending, h.range, fun u hu n hn => ?_, fun o ho n hn => ?_⟩ _
    · show (u.semadj n).toInt = -(if u.owner = owner then 0 else done u.owner n)
      have hne : u.owner ≠ owner := by
        rintro rfl
        exact hnot (mem_map_of_mem hu)
      rw [if_neg hne]
      exact h.exact u hu n hn
    · show (if o = owner then 0 else done o n) = 0
      split
      · rfl
      · exact h.fresh o ho n hn
  · rename_i u hfind
    rw [hfind] at hfit
    obtain ⟨hown, before, behind, hsplit, hbefore⟩ := List.find?_eq_some_iff_append.mp hfind
    have hown' : u.owner = owner := by simpa using hown
    have herase : (sma.undo.eraseP fun u => u.owner == owner) = before ++ behind := by
      rw [hsplit, eraseP_append_right _ fun v hv => by simpa using hbefore v hv,
        eraseP_cons_of_pos (by exact hown)]
    have hnodup : ((before ++ u :: behind).map SemUndo.owner).Nodup := hsplit ▸ h.owners
    have hperm : (before ++ u :: behind).Perm (u :: (before ++ behind)) := perm_middle
    have hcons := (hperm.map SemUndo.owner).nodup_iff.mp hnodup
    rw [map_cons, nodup_cons] at hcons
    have hmem : ∀ v, v ∈ sma.undo ↔ v = u ∨ v ∈ before ++ behind := by
      intro v
      rw [hsplit, hperm.mem_iff, mem_cons]
    have howners : ∀ o, o ∈ sma.owners ↔ o = owner ∨ o ∈ (before ++ behind).map SemUndo.owner := by
      intro o
      unfold SemArray.owners
      rw [hsplit, (hperm.map SemUndo.owner).mem_iff, map_cons, mem_cons, hown']
    rw [herase] at hfit ⊢
    refine SemInv.kept_updateQueue ⟨?_, ?_, ?_, ?_, ?_⟩ ?_ ?_ hfit _
    · exact hcons.2
    · intro q hq o ho
      refine ((howners o).mp (h.pending q hq o ho)).resolve_left ?_
      rintro rfl
      exact hlegal q hq ho
    · intro n hn
      show InRange (if n < sma.nsems ∧ u.semadj n ≠ 0 then clamp (sma.semval n + (u.semadj n).toInt)
        else sma.semval n)
      split
      · exact clamp_inRange _
      · exact h.range n hn
    · intro v hv n hn
      show (v.semadj n).toInt = -(if v.owner = owner then 0 else done v.owner n)
      have hne : v.owner ≠ owner := by
        intro heq
        exact hcons.1 (hown'.trans heq.symm ▸ mem_map_of_mem hv)
      rw [if_neg hne]
      exact h.exact v ((hmem v).mpr (.inr hv)) n hn
    · intro o ho n hn
      show (if o = owner then 0 else done o n) = 0
      split
      · rfl
      · rename_i hne
        exact h.fresh o (fun hold => ho (((howners o).mp hold).resolve_left hne)) n hn
    · intro n hn hset
      have hrange : InRange (sma.semval n + (u.semadj n).toInt) := by
        by_contra hout
        exact hset ⟨u, (hmem u).mpr (.inl rfl), hown', hout⟩
      have hval : (if n < sma.nsems ∧ u.semadj n ≠ 0 then clamp (sma.semval n + (u.semadj n).toInt)
          else sma.semval n) = sma.semval n + (u.semadj n).toInt := by
        split
        · exact clamp_of_inRange hrange
        · rename_i hzero
          have hz : u.semadj n = 0 := by
            by_contra hne
            exact hzero ⟨hn, hne⟩
          rw [hz]
          exact (add_zero _).symm
      unfold total
      rw [hsplit, (hperm.map _).sum_eq, map_cons, sum_cons, ← add_assoc, ← hval]
    · rfl

theorem SemInv.perform (h : SemInv sma done) {semopm : Nat} {call : SemCall} (hlegal : call.Legal sma)
    (hfit : call.Fits semopm sma) : Kept sma (call.forget (call.perform semopm sma).1 done) (call.Sets sma ·)
      (call.perform semopm sma) := by
  cases call with
  | semtimedop task owner sops alloc permitted => exact h.semtimedop hfit
  | wake task timedOut =>
    exact ⟨h.of_pending _ fun q hq => h.pending q (mem_of_mem_eraseP hq),
      fun _ _ _ => (add_zero _).symm, rfl⟩
  | setval semnum val permitted => exact h.setval hfit
  | setall vals permitted => exact h.setall hfit
  | exit owner => exact h.exitSem hlegal hfit

end Calls

/-! ## Runs -/

theorem semInv_newary (nsems : Nat) : SemInv (newary nsems) fun _ _ => 0 := by
  refine ⟨nodup_nil, nofun, fun n _ => ?_, nofun, fun _ _ _ _ => rfl⟩
  show InRange 0
  exact ⟨le_rfl, by decide⟩

/-- **Semaphore undo conserves value**, in every run in which every list that is done leaves the exact
adjustments within 16 bits. -/
theorem semaphore_undo_conserves (semopm nsems : Nat) {calls : List SemCall}
    (hcalls : Runs.Along (exec semopm) (fun s call => call.Legal s ∧ call.Fits semopm s)
      (newary nsems) calls) :
    ∃ rs sma' done', Runs.run (exec semopm) (newary nsems) calls = some (rs, sma') ∧
      Runs.Allows (SemCall.Conserves semopm) (newary nsems, fun _ _ => 0) calls rs (sma', done') := by
  have hstep : ∀ (s : SemArray) (t : SemArray × (Nat → Nat → Int)) (call : SemCall),
      (t.1 = s ∧ SemInv s t.2) → call.Legal s ∧ call.Fits semopm s →
      ∃ r s' t', call.exec semopm s = some (r, s') ∧ call.Conserves semopm t r t' ∧
        t'.1 = s' ∧ SemInv s' t'.2 := by
    rintro _ ⟨s, done⟩ call ⟨rfl, hinv⟩ ⟨hlegal, hfit⟩
    have hkept := hinv.perform hlegal hfit
    exact ⟨_, _, (_, call.record ((call.perform semopm s).1, (call.perform semopm s).2.2) done), rfl,
      ⟨rfl, rfl, hkept.inv.range, hkept.inv.exact, hkept.total⟩, rfl, hkept.inv⟩
  obtain ⟨rs, sma', ⟨_, done'⟩, hrun, hallows, rfl, -⟩ :=
    Runs.run_refines (R := fun s (t : SemArray × (Nat → Nat → Int)) => t.1 = s ∧ SemInv s t.2) hstep
      (t := (newary nsems, fun _ _ => 0)) ⟨rfl, semInv_newary nsems⟩ hcalls
  exact ⟨rs, _, done', hrun, hallows⟩

/-- A list that gets 20000 twice with `SEM_UNDO`, and gives them back once without. -/
def overflowing : SemCall :=
  .semtimedop 1 1 [⟨0, 20000, true, false⟩, ⟨0, -20000, false, false⟩, ⟨0, 20000, true, false⟩] true true

/-- **The adjustment wraps around:** the list is done, and the adjustment is 25536 and not -40000. -/
theorem semadj_wraps_around : overflowing.Legal (newary 1) ∧
    ∃ r sma', overflowing.exec 32 (newary 1) = some (r, sma') ∧ r.1 = .done ∧
      ∀ done', ¬ overflowing.Conserves 32 (newary 1, fun _ _ => 0) r (sma', done') := by
  refine ⟨trivial, _, _, rfl, rfl, fun done' h => ?_⟩
  have hexact := h.exact _ mem_cons_self 0 Nat.zero_lt_one
  rw [h.record] at hexact
  exact absurd hexact (by decide)

/-- One operation, which the exit takes back. -/
theorem semaphore_undo_conserves_pair : ∃ rs sma' done', Runs.run (exec 32) (newary 1)
        [.semtimedop 1 1 [⟨0, 1, true, false⟩] true true, .exit 1] = some (rs, sma') ∧
      Runs.Allows (SemCall.Conserves 32) (newary 1, fun _ _ => 0)
        [.semtimedop 1 1 [⟨0, 1, true, false⟩] true true, .exit 1] rs (sma', done') := by
  apply semaphore_undo_conserves
  refine ⟨⟨trivial, fun t ht => ?_⟩, fun p hp => ⟨⟨?_, fun t ht => ?_⟩, fun _ _ => trivial⟩⟩
  · rw [mem_singleton.mp ht]
    intro _ n
    show -semaem - 1 ≤ (0 : BitVec 16).toInt - undoSum [⟨0, 1, true, false⟩] n ∧
      (0 : BitVec 16).toInt - undoSum [⟨0, 1, true, false⟩] n ≤ semaem
    rw [undoSum_cons, show undoSum [] n = 0 from rfl]
    split
    · decide
    · decide
  · obtain rfl := Option.some.inj hp
    exact nofun
  · obtain rfl := Option.some.inj hp
    exact absurd ht not_mem_nil

end Linux
