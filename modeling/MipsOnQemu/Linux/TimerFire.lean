/-
# MipsOnQemu.Linux.TimerFire -- timers fire on time

One timer is followed from the call of `__mod_timer` that sets it: it is in the right slot for the tick
it is due at (`Wheel.Stored`), `cascade` puts it into the right slot of a lower level in time, and in the
round of its tick it gets onto the work list. Ticks are counted without end here; `timer_jiffies` is the
count modulo 2 ^ 32.
-/

import MipsOnQemu.Linux.Timer

namespace Linux

open Wheel List Function BitVec Option Nat Runs TimerSlot

variable {small : Bool}

/-! ## Slots -/

theorem bits_le (small : Bool) : 0 < tvrBits small ∧ 0 < tvnBits small ∧
    tvrBits small + 4 * tvnBits small ≤ 32 ∧ tvrBits small + 3 * tvnBits small < 31 := by
  cases small <;> decide

theorem tvIndex_ofNat {level : Nat} (hlevel : level ≤ 4) (x : Nat) :
    tvIndex small level (BitVec.ofNat 32 x) = index (tvrBits small) (tvnBits small) level x := by
  obtain ⟨hr, hn, hbits, -⟩ := bits_le small
  cases level with
  | zero =>
    have hmod : x % 2 ^ 32 % 2 ^ tvrBits small = x % 2 ^ tvrBits small :=
      mod_mod_of_dvd x (Nat.pow_dvd_pow 2 (by omega))
    rw [tvIndex, index, shift, width, toNat_and, Words.toNat_mask (by omega),
      and_two_pow_sub_one_eq_mod, toNat_ofNat, hmod, Nat.pow_zero, Nat.div_one]
  | succ level =>
    have hshift : tvrBits small + level * tvnBits small + tvnBits small ≤ 32 := by
      have hmul := Nat.mul_le_mul_right (tvnBits small) (show level + 1 ≤ 4 from hlevel)
      rw [Nat.succ_mul] at hmul
      omega
    rw [tvIndex, index, shift, width, toNat_and, Words.toNat_mask (by omega),
      and_two_pow_sub_one_eq_mod, toNat_ushiftRight, shiftRight_eq_div_pow, toNat_ofNat]
    -- the bits are all below the top of the word
    generalize tvrBits small + level * tvnBits small = a at *
    have hpow : 2 ^ 32 = 2 ^ a * (2 ^ tvnBits small * 2 ^ (32 - a - tvnBits small)) := by
      rw [← Nat.pow_add, ← Nat.pow_add]
      congr 1
      omega
    rw [hpow, mod_mul_right_div_self, mod_mul_right_mod]

/-- A time that is not in the past and less than half the way around: the timer is put where it will be
found, and taken out of the higher levels later. -/
theorem timerSlot_ofNat (small : Bool) {now due : Nat} (hle : now ≤ due) (hlt : due < now + 2 ^ 31) :
    ∃ level, level ≤ 4 ∧ timerSlot small (BitVec.ofNat 32 now) (BitVec.ofNat 32 due) =
        .vec level (index (tvrBits small) (tvnBits small) level due) ∧
      Stored (tvrBits small) (tvnBits small) level now due ∧
      (level ≠ 0 → now < visit (tvrBits small) (tvnBits small) level due) := by
  obtain ⟨hr, hn, -, hbits⟩ := bits_le small
  have hidx : (BitVec.ofNat 32 due - BitVec.ofNat 32 now).toNat = due - now := by
    rw [toNat_sub, toNat_ofNat, toNat_ofNat]
    omega
  have hlt_iff : ∀ b, b < 32 → (BitVec.ofNat 32 due - BitVec.ofNat 32 now < 1#32 <<< b ↔
      due - now < 2 ^ b) := by
    intro b hb
    rw [lt_def, hidx, Words.toNat_one_shiftLeft hb]
  -- a level above the lowest
  have hlevel : ∀ level, level ≠ 0 → 2 ^ shift (tvrBits small) (tvnBits small) level ≤ due - now →
      Stored (tvrBits small) (tvnBits small) level now due ∧
      (level ≠ 0 → now < visit (tvrBits small) (tvnBits small) level due) := fun level hne hle =>
    ⟨⟨(lt_visit hle).le, fun hzero => absurd hzero hne⟩, fun _ => lt_visit hle⟩
  unfold timerSlot
  dsimp only
  simp only [tvIndex_ofNat (Nat.zero_le 4), tvIndex_ofNat (show 1 ≤ 4 by decide),
    tvIndex_ofNat (show 2 ≤ 4 by decide), tvIndex_ofNat (show 3 ≤ 4 by decide), tvIndex_ofNat (le_refl 4)]
  by_cases h0 : due - now < 2 ^ tvrBits small
  · rw [if_pos ((hlt_iff _ (by omega)).mpr h0)]
    refine ⟨0, by omega, rfl, ⟨?_, fun _ => by omega⟩, fun hne => absurd rfl hne⟩
    rw [visit_zero]
    exact hle
  rw [if_neg (mt (hlt_iff _ (by omega)).mp h0)]
  by_cases h1 : due - now < 2 ^ (tvrBits small + tvnBits small)
  · rw [if_pos ((hlt_iff _ (by omega)).mpr h1)]
    refine ⟨1, by omega, rfl, hlevel 1 (by omega) ?_⟩
    rw [shift, Nat.zero_mul, Nat.add_zero]
    exact not_lt.mp h0
  rw [if_neg (mt (hlt_iff _ (by omega)).mp h1)]
  by_cases h2 : due - now < 2 ^ (tvrBits small + 2 * tvnBits small)
  · rw [if_pos ((hlt_iff _ (by omega)).mpr h2)]
    refine ⟨2, by omega, rfl, hlevel 2 (by omega) ?_⟩
    rw [shift, Nat.one_mul]
    exact not_lt.mp h1
  rw [if_neg (mt (hlt_iff _ (by omega)).mp h2)]
  by_cases h3 : due - now < 2 ^ (tvrBits small + 3 * tvnBits small)
  · rw [if_pos ((hlt_iff _ (by omega)).mpr h3)]
    exact ⟨3, by omega, rfl, hlevel 3 (by omega) (not_lt.mp h2)⟩
  rw [if_neg (mt (hlt_iff _ (by omega)).mp h3), if_neg, if_neg]
  · exact ⟨4, by omega, rfl, hlevel 4 (by omega) (not_lt.mp h3)⟩
  · rw [lt_def, hidx]
    simp only [toNat_ofNat]
    omega
  · rw [toInt_eq_toNat_cond, hidx, if_pos (by omega)]
    omega

theorem timerSlot_past {timerJiffies expires : BitVec 32} (h : (expires - timerJiffies).toInt < 0) :
    timerSlot small timerJiffies expires = .vec 0 (tvIndex small 0 timerJiffies) := by
  obtain ⟨hr, hn, -, hbits⟩ := bits_le small
  have hnat : 2 ^ 31 ≤ (expires - timerJiffies).toNat := by
    rw [toInt_eq_toNat_cond] at h
    split at h
    · omega
    · omega
  have hge : ∀ b, b ≤ 31 → ¬ expires - timerJiffies < 1#32 <<< b := by
    intro b hb
    have hpow : 2 ^ b ≤ 2 ^ 31 := Nat.pow_le_pow_right (by decide) hb
    rw [lt_def, Words.toNat_one_shiftLeft (by omega)]
    omega
  unfold timerSlot
  dsimp only
  rw [if_neg (hge _ (by omega)), if_neg (hge _ (by omega)), if_neg (hge _ (by omega)),
    if_neg (hge _ (by omega)), if_pos h]

/-! ## Lists -/

/-- A timer is on a list, once, and on no other. -/
def OnList (s : TimerState) (timer : Nat) (slot : TimerSlot) : Prop :=
  ∀ slot', (s.lists slot').count timer = if slot' = slot then 1 else 0

def OffLists (s : TimerState) (timer : Nat) : Prop := ∀ slot, (s.lists slot).count timer = 0

/-- A timer that is on a list has a list entry that says so. -/
def PendingOk (s : TimerState) : Prop :=
  ∀ slot, ∀ timer ∈ s.lists slot, (s.timers timer).pending = true

/-- Nothing has changed for a timer. -/
structure SameFor (timer : Nat) (s s' : TimerState) : Prop where
  timerJiffies : s'.timerJiffies = s.timerJiffies
  expires : (s'.timers timer).expires = (s.timers timer).expires
  count : ∀ slot, (s'.lists slot).count timer = (s.lists slot).count timer

section Lists

variable {s s' s'' : TimerState} {timer other : Nat} {slot : TimerSlot}

theorem SameFor.refl (timer : Nat) (s : TimerState) : SameFor timer s s :=
  ⟨rfl, rfl, fun _ => rfl⟩

theorem SameFor.trans (h : SameFor timer s s') (h' : SameFor timer s' s'') : SameFor timer s s'' :=
  ⟨h'.timerJiffies.trans h.timerJiffies, h'.expires.trans h.expires,
    fun slot => (h'.count slot).trans (h.count slot)⟩

theorem SameFor.onList (h : SameFor timer s s') (hs : OnList s timer slot) : OnList s' timer slot :=
  fun slot' => (h.count slot').trans (hs slot')

theorem SameFor.offLists (h : SameFor timer s s') (hs : OffLists s timer) : OffLists s' timer :=
  fun slot => (h.count slot).trans (hs slot)

theorem OnList.mem (h : OnList s timer slot) : timer ∈ s.lists slot := by
  rw [← count_pos_iff, h slot, if_pos rfl]
  exact Nat.one_pos

theorem pendingOk_iff : PendingOk s ↔ ∀ timer, (s.timers timer).pending = false → OffLists s timer := by
  simp only [PendingOk, OffLists, count_eq_zero]
  constructor
  · intro h timer hidle slot hmem
    exact Bool.false_ne_true (hidle.symm.trans (h slot timer hmem))
  · intro h slot timer hmem
    exact Bool.eq_true_of_not_eq_false fun hidle => h timer hidle slot hmem

/-- A list of the wheel is replaced. -/
theorem count_update (lists : TimerSlot → List Nat) (replaced slot : TimerSlot) (l : List Nat) (timer : Nat) :
    (update lists replaced l slot).count timer =
      if slot = replaced then l.count timer else (lists slot).count timer := by
  rw [update_apply]
  split <;> rfl

theorem count_internalAddTimer (s : TimerState) (timer other : Nat) (slot : TimerSlot) :
    ((internalAddTimer small s other).lists slot).count timer = (s.lists slot).count timer +
      if slot = timerSlot small s.timerJiffies (s.timers timer).expires then [other].count timer else 0 := by
  rw [internalAddTimer, count_update, count_append]
  by_cases hother : other = timer
  · subst hother
    split <;> simp_all
  · have hzero : [other].count timer = 0 := by simp [hother]
    rw [hzero, ite_self]
    split <;> simp_all

/-- The entry of a timer, and that of a timer which is added. -/
theorem timers_internalAddTimer (s : TimerState) (timer other : Nat) :
    (internalAddTimer small s other).timers timer =
      { s.timers timer with pending := (s.timers timer).pending || decide (timer = other) } := by
  unfold internalAddTimer
  dsimp only
  rw [update_apply]
  split <;> simp_all

theorem sameFor_internalAddTimer (hne : other ≠ timer) :
    SameFor timer s (internalAddTimer small s other) := by
  refine ⟨rfl, by rw [timers_internalAddTimer], fun slot => ?_⟩
  simp [count_internalAddTimer, hne]

theorem foldl_internalAddTimer (small : Bool) (l : List Nat) (s : TimerState) (timer : Nat) :
    (l.foldl (internalAddTimer small) s).timerJiffies = s.timerJiffies ∧
      (l.foldl (internalAddTimer small) s).timers timer =
        { s.timers timer with pending := (s.timers timer).pending || decide (timer ∈ l) } ∧
      ∀ slot, ((l.foldl (internalAddTimer small) s).lists slot).count timer = (s.lists slot).count timer +
          if slot = timerSlot small s.timerJiffies (s.timers timer).expires then l.count timer else 0 := by
  induction l generalizing s with
  | nil => simp
  | cons other l ih =>
    obtain ⟨hjiffies, htimers, hcount⟩ := ih (internalAddTimer small s other)
    rw [timers_internalAddTimer] at htimers hcount
    refine ⟨hjiffies, ?_, fun slot => ?_⟩
    · rw [foldl_cons, htimers]
      simp [Bool.or_assoc]
    · have hsame : (internalAddTimer small s other).timerJiffies = s.timerJiffies := rfl
      rw [foldl_cons, hcount slot, count_internalAddTimer, hsame, ← singleton_append (l := l), count_append]
      split <;> omega

theorem count_detachTimer (s : TimerState) (timer other : Nat) (clear : Bool) (slot : TimerSlot) :
    ((detachTimer s other clear).lists slot).count timer =
      if other = timer then 0 else (s.lists slot).count timer := by
  unfold detachTimer
  dsimp only
  split
  · rename_i heq
    rw [count_eq_zero, mem_filter, heq]
    simp
  · rename_i hne
    exact count_filter (by simpa using Ne.symm hne)

theorem offLists_detachTimer (clear : Bool) : OffLists (detachTimer s timer clear) timer := by
  intro slot
  rw [count_detachTimer, if_pos rfl]

theorem timers_detachTimer (hne : other ≠ timer) (clear : Bool) :
    (detachTimer s other clear).timers timer = s.timers timer := by
  unfold detachTimer
  dsimp only
  split
  · exact update_of_ne hne.symm _ _
  · rfl

theorem sameFor_detachTimer (hne : other ≠ timer) (clear : Bool) :
    SameFor timer s (detachTimer s other clear) := by
  refine ⟨rfl, by rw [timers_detachTimer hne], fun slot => ?_⟩
  rw [count_detachTimer, if_neg hne]

theorem pendingOk_detachTimer (h : PendingOk s) (other : Nat) (clear : Bool) :
    PendingOk (detachTimer s other clear) := by
  rw [pendingOk_iff] at h ⊢
  intro timer hidle
  by_cases hne : other = timer
  · subst hne
    exact offLists_detachTimer clear
  · rw [timers_detachTimer hne] at hidle
    exact (sameFor_detachTimer hne clear).offLists (h timer hidle)

/-! ### Setting and deleting -/

/-- A timer that is set is taken off its list, gets its time, and is added. -/
theorem rawModTimer_eq (small : Bool) (s : TimerState) (timer : Nat) (expires : BitVec 32) :
    ∃ s', (rawModTimer small s timer expires).2 = internalAddTimer small (setExpires s' timer expires) timer ∧
      (s' = s ∧ (s.timers timer).pending = false ∨ s' = detachTimer s timer false) := by
  refine ⟨_, rfl, ?_⟩
  cases (s.timers timer).pending with
  | true => exact .inr rfl
  | false => exact .inl ⟨rfl, rfl⟩

/-- **A timer that is set** is on the list that its time selects. -/
theorem onList_rawModTimer (small : Bool) (h : PendingOk s) (timer : Nat) (expires : BitVec 32) :
    OnList (rawModTimer small s timer expires).2 timer (timerSlot small s.timerJiffies expires) ∧
      (rawModTimer small s timer expires).2.timerJiffies = s.timerJiffies ∧
      ((rawModTimer small s timer expires).2.timers timer).expires = expires := by
  obtain ⟨s', heq, hs'⟩ := rawModTimer_eq small s timer expires
  have hoff : OffLists s' timer ∧ s'.timerJiffies = s.timerJiffies := by
    rcases hs' with ⟨rfl, hidle⟩ | rfl
    · exact ⟨pendingOk_iff.mp h timer hidle, rfl⟩
    · exact ⟨offLists_detachTimer false, rfl⟩
  have hset : ((setExpires s' timer expires).timers timer).expires = expires := by simp [setExpires]
  have hcount : ∀ slot, ((setExpires s' timer expires).lists slot).count timer = 0 := hoff.1
  rw [heq]
  refine ⟨fun slot => ?_, hoff.2, ?_⟩
  · rw [count_internalAddTimer, hset, hcount, Nat.zero_add, count_singleton_self, ← hoff.2]
    rfl
  · rw [timers_internalAddTimer, hset]

theorem sameFor_rawModTimer (hne : other ≠ timer) (expires : BitVec 32) :
    SameFor timer s (rawModTimer small s other expires).2 := by
  obtain ⟨s', heq, hs'⟩ := rawModTimer_eq small s other expires
  have hdetach : SameFor timer s s' := by
    rcases hs' with ⟨rfl, -⟩ | rfl
    · exact .refl timer s'
    · exact sameFor_detachTimer hne false
  have hset : SameFor timer s' (setExpires s' other expires) :=
    ⟨rfl, by simp [setExpires, hne.symm], fun _ => rfl⟩
  rw [heq]
  exact (hdetach.trans hset).trans (sameFor_internalAddTimer hne)

theorem pendingOk_rawModTimer (h : PendingOk s) (other : Nat) (expires : BitVec 32) :
    PendingOk (rawModTimer small s other expires).2 := by
  obtain ⟨s', heq, hs'⟩ := rawModTimer_eq small s other expires
  have hdetach : PendingOk s' := by
    rcases hs' with ⟨rfl, -⟩ | rfl
    · exact h
    · exact pendingOk_detachTimer h other false
  rw [pendingOk_iff] at hdetach ⊢
  intro timer hidle
  rw [heq, timers_internalAddTimer] at hidle
  -- the timer that is set is pending now
  have hne : other ≠ timer := by
    rintro rfl
    simp at hidle
  have hoff : OffLists (setExpires s' other expires) timer :=
    hdetach timer (by simpa [setExpires, hne.symm] using hidle)
  rw [heq]
  exact (sameFor_internalAddTimer hne).offLists hoff

/-! ### Cascades -/

/-- **A cascade** moves the timers of one list. -/
theorem cascade_cases (small : Bool) (s : TimerState) (timer level i : Nat) :
    (cascade small s level i).timerJiffies = s.timerJiffies ∧
      (∃ pending, (cascade small s level i).timers timer = { s.timers timer with
        pending := (s.timers timer).pending || pending }) ∧
      ∀ slot, ((cascade small s level i).lists slot).count timer =
        (if slot = .vec level i then 0 else (s.lists slot).count timer) +
          if slot = timerSlot small s.timerJiffies (s.timers timer).expires then
            (s.lists (.vec level i)).count timer else 0 := by
  obtain ⟨hjiffies, htimers, hcount⟩ := foldl_internalAddTimer small (s.lists (.vec level i))
    { s with lists := update s.lists (.vec level i) [] } timer
  refine ⟨hjiffies, ⟨_, htimers⟩, fun slot => ?_⟩
  rw [cascade, hcount slot, count_update, count_nil]

theorem cascade_onList (small : Bool) (h : OnList s timer slot) (level i : Nat) :
    OnList (cascade small s level i) timer (if slot = .vec level i then
        timerSlot small s.timerJiffies (s.timers timer).expires else slot) ∧
      (cascade small s level i).timerJiffies = s.timerJiffies ∧
      ((cascade small s level i).timers timer).expires = (s.timers timer).expires := by
  obtain ⟨hjiffies, ⟨pending, htimers⟩, hcount⟩ := cascade_cases small s timer level i
  refine ⟨fun slot' => ?_, hjiffies, by rw [htimers]⟩
  rw [hcount slot', h slot', h (.vec level i)]
  grind

theorem offLists_cascade (h : OffLists s timer) (level i : Nat) :
    OffLists (cascade small s level i) timer := by
  intro slot
  rw [(cascade_cases small s timer level i).2.2 slot, h slot, h (.vec level i), ite_self, ite_self]

theorem pendingOk_cascade (h : PendingOk s) (level i : Nat) : PendingOk (cascade small s level i) := by
  rw [pendingOk_iff] at h ⊢
  intro timer hidle
  obtain ⟨pending, htimers⟩ := (cascade_cases small s timer level i).2.1
  rw [htimers] at hidle
  exact offLists_cascade (h timer (Bool.or_eq_false_iff.mp hidle).1) level i

theorem cascadeLevels_induction {P : TimerState → Prop}
    (hP : ∀ s level i, P s → P (cascade small s level i)) (levels : List Nat) (h : P s) :
    P (cascadeLevels small levels s) := by
  induction levels generalizing s with
  | nil => exact h
  | cons level levels ih =>
    rw [cascadeLevels]
    split
    · exact ih (hP s _ _ h)
    · exact hP s _ _ h

theorem startRound_eq (small : Bool) {P : TimerState → Prop} (hP : ∀ s level i, P s → P (cascade small s level i))
    (h : P s) : ∃ s' i, P s' ∧ startRound small s = { s' with
      timerJiffies := s'.timerJiffies + 1
      lists := Function.update (Function.update s'.lists .work (s'.lists (.vec 0 i))) (.vec 0 i) [] } := by
  unfold startRound
  dsimp only
  split
  · exact ⟨_, _, cascadeLevels_induction hP _ h, rfl⟩
  · exact ⟨_, _, h, rfl⟩

theorem timerJiffies_startRound (s : TimerState) :
    (startRound small s).timerJiffies = s.timerJiffies + 1 := by
  obtain ⟨s', i, hs', heq⟩ := startRound_eq small (P := fun s' => s'.timerJiffies = s.timerJiffies)
    (fun s' level i hs' => (cascade_cases small s' 0 level i).1.trans hs') rfl
  rw [heq, hs']

theorem offLists_startRound (h : OffLists s timer) : OffLists (startRound small s) timer := by
  obtain ⟨s', i, hs', heq⟩ := startRound_eq small (P := fun s => OffLists s timer)
    (fun _ level i h => offLists_cascade h level i) h
  intro slot
  simp [heq, count_update, hs' _]

theorem pendingOk_startRound (h : PendingOk s) : PendingOk (startRound small s) := by
  obtain ⟨s', i, hs', heq⟩ := startRound_eq small (P := PendingOk)
    (fun _ level i h => pendingOk_cascade h level i) h
  rw [pendingOk_iff] at hs' ⊢
  intro timer hidle slot
  rw [heq] at hidle ⊢
  simp [count_update, hs' timer hidle _]

end Lists

/-! ## Rounds -/

/-- **A timer waits for its tick** in a level; `now` is the tick of the next round. -/
structure Waiting (small : Bool) (s : TimerState) (timer now due level : Nat) : Prop where
  le : level ≤ 4
  timerJiffies : s.timerJiffies = BitVec.ofNat 32 now
  onList : OnList s timer (.vec level (index (tvrBits small) (tvnBits small) level due))
  stored : Stored (tvrBits small) (tvnBits small) level now due
  near : due < now + 2 ^ 31
  expires : level ≠ 0 → (s.timers timer).expires = BitVec.ofNat 32 due

/-- A timer in a level above the lowest is not taken out with this tick. -/
def Later (small : Bool) (now due level : Nat) : Prop :=
  level ≠ 0 → now < visit (tvrBits small) (tvnBits small) level due

section Rounds

variable {s s' : TimerState} {timer now due level : Nat}

section

variable (h : Waiting small s timer now due level)
include h

theorem Waiting.le_due : now ≤ due :=
  h.stored.1.trans (visit_le level due)

theorem Waiting.tvIndex_eq {level' : Nat} (hlevel' : level' ≤ 4) :
    tvIndex small level' s.timerJiffies = index (tvrBits small) (tvnBits small) level' now := by
  rw [h.timerJiffies, tvIndex_ofNat hlevel']

theorem Waiting.later_of_index (hne : now % 2 ^ shift (tvrBits small) (tvnBits small) level = 0 →
      index (tvrBits small) (tvnBits small) level now ≠
        index (tvrBits small) (tvnBits small) level due) : Later small now due level := by
  intro _
  refine lt_of_le_of_ne h.stored.1 fun heq => ?_
  obtain ⟨haligned, hindex⟩ := aligned_visit (r := tvrBits small) (n := tvnBits small) level due
  rw [← heq] at haligned hindex
  exact hne haligned hindex

theorem Waiting.cascade {level' : Nat} (hlevel' : level' ≤ 4) (hne : level' ≠ 0) : ∃ level'', Waiting small
      (cascade small s level' (tvIndex small level' s.timerJiffies)) timer now due level'' ∧
      (Later small now due level'' ∨ (level'' = level ∧ (level = level' → Later small now due level))) := by
  obtain ⟨honList, hjiffies, hexpires⟩ :=
    cascade_onList small h.onList level' (tvIndex small level' s.timerJiffies)
  by_cases hslot : level = level' ∧
      index (tvrBits small) (tvnBits small) level due = tvIndex small level' s.timerJiffies
  · obtain ⟨rfl, hslot⟩ := hslot
    obtain ⟨level'', hle, hto, hstored, hlater⟩ := timerSlot_ofNat small h.le_due h.near
    rw [← h.timerJiffies, ← h.expires hne] at hto
    rw [if_pos (by rw [hslot]), hto] at honList
    refine ⟨level'', ⟨hle, hjiffies.trans h.timerJiffies, honList, hstored, h.near, fun _ => ?_⟩,
      .inl hlater⟩
    rw [hexpires, h.expires hne]
  · rw [if_neg fun heq => hslot (vec.inj heq)] at honList
    refine ⟨level, ⟨h.le, hjiffies.trans h.timerJiffies, honList, h.stored, h.near, fun hzero => ?_⟩,
      .inr ⟨rfl, fun heq => h.later_of_index fun _ hsame => ?_⟩⟩
    · rw [hexpires, h.expires hzero]
    · subst heq
      exact hslot ⟨rfl, by rw [h.tvIndex_eq hlevel', hsame]⟩

/-- **The chain of cascades** leaves no timer in a level that is to be taken out with this tick. -/
theorem Waiting.cascadeLevels {k level' : Nat} (hlevels : level' + k = 5) (hne : level' ≠ 0)
    (haligned : now % 2 ^ shift (tvrBits small) (tvnBits small) level' = 0) :
    ∃ level'', Waiting small (cascadeLevels small (List.range' level' k) s) timer now due level'' ∧
      (Later small now due level'' ∨ (level'' = level ∧ level < level')) := by
  induction k generalizing s level level' with
  | zero =>
    refine ⟨level, h, .inr ⟨rfl, ?_⟩⟩
    have hle := h.le
    omega
  | succ k ih =>
    have hlevel' : level' ≤ 4 := by omega
    obtain ⟨level₁, h₁, hlater₁⟩ := h.cascade hlevel' hne
    have hindex := h.tvIndex_eq hlevel'
    rw [range'_succ, Linux.cascadeLevels]
    by_cases hzero : tvIndex small level' s.timerJiffies = 0
    · rw [if_pos hzero]
      have hnext : now % 2 ^ shift (tvrBits small) (tvnBits small) (level' + 1) = 0 :=
        (aligned_succ_iff level' now).mpr ⟨haligned, hindex ▸ hzero⟩
      obtain ⟨level₂, h₂, hlater₂⟩ := ih h₁ (by omega) (by omega) hnext
      refine ⟨level₂, h₂, ?_⟩
      rcases hlater₂ with hlater₂ | ⟨rfl, hlt⟩
      · exact .inl hlater₂
      · rcases hlater₁ with hlater₁ | ⟨rfl, hsame⟩
        · exact .inl hlater₁
        · rcases Nat.lt_succ_iff_lt_or_eq.mp hlt with hlt | heq
          · exact .inr ⟨rfl, hlt⟩
          · exact .inl (hsame heq)
    · rw [if_neg hzero]
      refine ⟨level₁, h₁, ?_⟩
      rcases hlater₁ with hlater₁ | ⟨rfl, hsame⟩
      · exact .inl hlater₁
      · rcases Nat.lt_trichotomy level₁ level' with hlt | heq | hgt
        · exact .inr ⟨rfl, hlt⟩
        · exact .inl (hsame heq)
        · -- the higher levels are not reached, since some bits below them are not zero
          refine .inl (h.later_of_index fun hhigh => ?_)
          have hnext := aligned_of_le (show level' + 1 ≤ level₁ from hgt) hhigh
          exact absurd (hindex ▸ ((aligned_succ_iff level' now).mp hnext).2) hzero

/-- **One round:** a timer whose tick it is gets onto the work list, and the others wait on. -/
theorem Waiting.startRound : (due = now → OnList (startRound small s) timer .work) ∧
      (due ≠ now → ∃ level', Waiting small (startRound small s) timer (now + 1) due level') := by
  have hindex := h.tvIndex_eq (Nat.zero_le 4)
  -- the cascades
  have hcascades : ∃ s' level', (if tvIndex small 0 s.timerJiffies = 0 then
      Linux.cascadeLevels small [1, 2, 3, 4] s else s) = s' ∧ Waiting small s' timer now due level' ∧
      Later small now due level' := by
    by_cases hzero : tvIndex small 0 s.timerJiffies = 0
    · rw [if_pos hzero]
      have haligned : now % 2 ^ shift (tvrBits small) (tvnBits small) 1 = 0 :=
        (aligned_succ_iff 0 now).mpr ⟨mod_one now, hindex ▸ hzero⟩
      obtain ⟨level', h', hlater⟩ := h.cascadeLevels (k := 4) rfl Nat.one_ne_zero haligned
      refine ⟨_, level', rfl, h', ?_⟩
      rcases hlater with hlater | ⟨rfl, hlt⟩
      · exact hlater
      · exact fun hne => absurd (lt_one_iff.mp hlt) hne
    · rw [if_neg hzero]
      refine ⟨s, level, rfl, h, fun hne => h.later_of_index (fun hhigh => ?_) hne⟩
      have hnext := aligned_of_le (show 0 + 1 ≤ level by omega) hhigh
      exact absurd (hindex ▸ ((aligned_succ_iff 0 now).mp hnext).2) hzero
  obtain ⟨s', level', heq, h', hlater⟩ := hcascades
  have hround : Linux.startRound small s = { s' with
      timerJiffies := s'.timerJiffies + 1
      lists := update (update s'.lists .work
        (s'.lists (.vec 0 (index (tvrBits small) (tvnBits small) 0 now))))
        (.vec 0 (index (tvrBits small) (tvnBits small) 0 now)) [] } := by
    unfold Linux.startRound
    dsimp only
    rw [heq, hindex]
  rw [hround]
  constructor
  · rintro rfl
    -- only the lowest level has timers for this tick now
    obtain rfl : level' = 0 := by
      by_contra hne
      exact absurd (hlater hne) (visit_le level' due).not_gt
    intro slot
    rw [count_update, count_update, h'.onList, h'.onList]
    grind
  · intro hdue
    have hslot : vec level' (index (tvrBits small) (tvnBits small) level' due) ≠
        .vec 0 (index (tvrBits small) (tvnBits small) 0 now) := by
      intro hsame
      obtain ⟨rfl, hsame⟩ := vec.inj hsame
      exact hdue (eq_of_index_zero h'.stored hsame.symm)
    refine ⟨level', h'.le, ?_, fun slot => ?_, h'.stored.succ fun hvisit => ?_, ?_, h'.expires⟩
    · rw [h'.timerJiffies, ofNat_add]
      rfl
    · rw [count_update, count_update, h'.onList, h'.onList]
      grind
    · by_cases hzero : level' = 0
      · rw [hzero, visit_zero] at hvisit
        exact hdue hvisit.symm
      · exact absurd hvisit (hlater hzero).ne
    · have hnear := h'.near
      omega

end

end Rounds

/-! ## Runs -/

/-- The timer that a step sets or deletes. -/
def TimerOp.timer? : TimerOp → Option Nat
  | .rawMod timer _ => some timer
  | .mod timer _ => some timer
  | .del timer => some timer
  | .tick _ => none
  | .run => none

/-- The handlers that are called in a round; round 0 is the one that is under way at the beginning. -/
def callsIn : Nat → List TimerEvent → List Nat
  | _, [] => []
  | n, .quiet :: events => callsIn n events
  | n, .round _ :: events => if n = 0 then [] else callsIn (n - 1) events
  | n, .call timer :: events => if n = 0 then timer :: callsIn n events else callsIn n events

/-- The ticks of the rounds that begin. -/
def ticksOf : List TimerEvent → List (BitVec 32)
  | [] => []
  | .quiet :: events => ticksOf events
  | .round tick :: events => tick :: ticksOf events
  | .call _ :: events => ticksOf events

/-- **The handler of a timer is called in one round only**, once, and not later than the end of that
round. -/
structure FiresOnce (timer k : Nat) (events : List TimerEvent) (s' : TimerState) : Prop where
  only : ∀ n, n ≠ k → timer ∉ callsIn n events
  atMost : (callsIn k events).count timer ≤ 1
  called : (k < (ticksOf events).length ∨ ((ticksOf events).length = k ∧ s'.lists .work = [])) →
    (callsIn k events).count timer = 1

section Runs

variable {s s' : TimerState} {timer now due level : Nat} {op : TimerOp} {event : TimerEvent}

theorem TimerOp.exec_cases (h : op.exec small s = some (event, s')) :
    (event = .quiet ∧ ((∃ jiffies, s' = { s with jiffies }) ∨ ∃ other, op.timer? = some other ∧
        ((∃ expires, s' = (rawModTimer small s other expires).2) ∨ s' = detachTimer s other true))) ∨
      (∃ other rest, s.lists .work = other :: rest ∧ event = .call other ∧
        s' = detachTimer s other true) ∨
      (s.lists .work = [] ∧ event = .round s.timerJiffies ∧ s' = startRound small s) := by
  have hsame : ∃ jiffies, s = { s with jiffies } := ⟨s.jiffies, rfl⟩
  cases op with
  | rawMod other expires =>
    cases h
    exact .inl ⟨rfl, .inr ⟨other, rfl, .inl ⟨expires, rfl⟩⟩⟩
  | mod other expires =>
    cases h
    rw [modTimer]
    split
    · exact .inl ⟨rfl, .inl hsame⟩
    · exact .inl ⟨rfl, .inr ⟨other, rfl, .inl ⟨expires, rfl⟩⟩⟩
  | del other =>
    cases h
    rw [delTimer]
    split
    · exact .inl ⟨rfl, .inr ⟨other, rfl, .inr rfl⟩⟩
    · exact .inl ⟨rfl, .inl hsame⟩
  | tick ticks =>
    cases h
    exact .inl ⟨rfl, .inl ⟨_, rfl⟩⟩
  | run =>
    have hrun : runTimers small s = (event, s') := some.inj h
    unfold runTimers at hrun
    cases hwork : s.lists .work with
    | cons other rest =>
      rw [hwork] at hrun
      cases hrun
      exact .inr (.inl ⟨other, rest, rfl, rfl, rfl⟩)
    | nil =>
      rw [hwork] at hrun
      dsimp only at hrun
      split at hrun
      · cases hrun
        exact .inr (.inr ⟨rfl, rfl, rfl⟩)
      · cases hrun
        exact .inl ⟨rfl, .inl hsame⟩

theorem TimerOp.pendingOk (s : TimerState) (op : TimerOp) (p : TimerEvent × TimerState)
    (h : PendingOk s) (_ : True) (hexec : op.exec small s = some p) : PendingOk p.2 := by
  obtain ⟨event, s'⟩ := p
  rcases op.exec_cases hexec with ⟨-, ⟨jiffies, rfl⟩ | ⟨other, -, ⟨expires, rfl⟩ | rfl⟩⟩ |
    ⟨other, rest, -, -, rfl⟩ | ⟨-, -, rfl⟩
  · exact h
  · exact pendingOk_rawModTimer h other expires
  · exact pendingOk_detachTimer h other true
  · exact pendingOk_detachTimer h other true
  · exact pendingOk_startRound h

variable {ops : List TimerOp} {events : List TimerEvent}

/-! ### Events -/

theorem FiresOnce.quiet {k : Nat} (h : FiresOnce timer k events s') :
    FiresOnce timer k (.quiet :: events) s' :=
  ⟨h.only, h.atMost, h.called⟩

theorem FiresOnce.call {other k : Nat} (h : FiresOnce timer k events s') (hne : other ≠ timer) :
    FiresOnce timer k (.call other :: events) s' := by
  have hcount : (callsIn k (.call other :: events)).count timer = (callsIn k events).count timer := by
    rw [callsIn]
    split
    · exact count_cons_of_ne hne
    · rfl
  refine ⟨fun n hn => ?_, hcount.trans_le h.atMost, fun hover => hcount.trans (h.called hover)⟩
  rw [callsIn]
  split
  · exact not_mem_cons_of_ne_of_not_mem hne.symm (h.only n hn)
  · exact h.only n hn

theorem FiresOnce.round {k : Nat} (h : FiresOnce timer k events s') (tick : BitVec 32) :
    FiresOnce timer (k + 1) (.round tick :: events) s' := by
  have hcalls : callsIn (k + 1) (.round tick :: events) = callsIn k events := by
    rw [callsIn, if_neg (succ_ne_zero k), Nat.add_sub_cancel]
  refine ⟨fun n hn => ?_, hcalls ▸ h.atMost, fun hover => hcalls ▸ h.called ?_⟩
  · rw [callsIn]
    split
    · exact not_mem_nil
    · exact h.only (n - 1) (by omega)
  · rw [ticksOf, length_cons] at hover
    exact hover.imp lt_of_succ_lt_succ fun hlast => ⟨succ.inj hlast.1, hlast.2⟩

theorem firesOnce_call (h : ∀ n, timer ∉ callsIn n events) :
    FiresOnce timer 0 (.call timer :: events) s' := by
  have hcount : (callsIn 0 (.call timer :: events)).count timer = 1 := by
    rw [callsIn, if_pos rfl, count_cons_self, count_eq_zero.mpr (h 0)]
  refine ⟨fun n hn => ?_, hcount.le, fun _ => hcount⟩
  rw [callsIn, if_neg hn]
  exact h n

/-! ### What becomes of a timer -/

/-- A run, seen from a timer that it does not set or delete. -/
inductive Spared (small : Bool) (timer : Nat) : TimerState → List TimerEvent → TimerState → Prop
  | nil {s : TimerState} : Spared small timer s [] s
  | quiet {s s₁ s' : TimerState} {events : List TimerEvent} (hsame : SameFor timer s s₁)
      (hrest : Spared small timer s₁ events s') : Spared small timer s (.quiet :: events) s'
  | call {s s' : TimerState} {other : Nat} {rest : List Nat} {events : List TimerEvent}
      (hwork : s.lists .work = other :: rest) (hrest : Spared small timer (detachTimer s other true) events s') :
      Spared small timer s (.call other :: events) s'
  | round {s s' : TimerState} {events : List TimerEvent} (hwork : s.lists .work = [])
      (hrest : Spared small timer (startRound small s) events s') :
      Spared small timer s (.round s.timerJiffies :: events) s'

theorem spared_of_run (hops : ∀ op ∈ ops, op.timer? ≠ some timer)
    (hrun : run (TimerOp.exec small) s ops = some (events, s')) : Spared small timer s events s' := by
  induction ops generalizing s events with
  | nil =>
    cases hrun
    exact .nil
  | cons op ops ih =>
    obtain ⟨⟨event, s₁⟩, ⟨events₁, s₂⟩, hexec, hrest, hq⟩ := exists_of_run_cons hrun
    obtain ⟨rfl, rfl⟩ := Prod.mk.inj hq
    obtain ⟨hop, hops⟩ := forall_mem_cons.mp hops
    rcases op.exec_cases hexec with ⟨rfl, hquiet⟩ | ⟨other, rest, hwork, rfl, rfl⟩ | ⟨hwork, rfl, rfl⟩
    · refine .quiet ?_ (ih hops hrest)
      rcases hquiet with ⟨jiffies, rfl⟩ | ⟨other, hother, hs⟩
      · exact ⟨rfl, rfl, fun _ => rfl⟩
      · have hne : other ≠ timer := fun heq => hop (hother.trans (congrArg some heq))
        rcases hs with ⟨expires, rfl⟩ | rfl
        · exact sameFor_rawModTimer hne expires
        · exact sameFor_detachTimer hne true
    · exact .call hwork (ih hops hrest)
    · exact .round hwork (ih hops hrest)

theorem not_called_of_offLists (hrun : Spared small timer s events s') (h : OffLists s timer) (n : Nat) :
    timer ∉ callsIn n events := by
  induction hrun generalizing n with
  | nil => exact not_mem_nil
  | quiet hsame _ ih => exact ih (hsame.offLists h) n
  | @call s _ other rest _ hwork _ ih =>
    have hne : other ≠ timer := by
      rintro rfl
      have hcount := h .work
      rw [hwork, count_cons_self] at hcount
      cases hcount
    have hcalls := ih ((sameFor_detachTimer hne true).offLists h) n
    rw [callsIn]
    split
    · exact not_mem_cons_of_ne_of_not_mem hne.symm hcalls
    · exact hcalls
  | round _ _ ih =>
    rw [callsIn]
    split
    · exact not_mem_nil
    · exact ih (offLists_startRound h) _

/-- **On the work list:** the handler is called in this round. -/
theorem firesOnce_of_work (hrun : Spared small timer s events s') (h : OnList s timer .work) :
    FiresOnce timer 0 events s' := by
  induction hrun with
  | nil =>
    refine ⟨fun _ _ => not_mem_nil, Nat.zero_le 1, fun hover => ?_⟩
    rcases hover with hover | hover
    · cases hover
    · have hmem := h.mem
      rw [hover.2] at hmem
      cases hmem
  | quiet hsame _ ih => exact (ih (hsame.onList h)).quiet
  | @call s _ other rest _ hwork hrest ih =>
    by_cases hne : other = timer
    · subst hne
      exact firesOnce_call (not_called_of_offLists hrest (offLists_detachTimer true))
    · exact (ih ((sameFor_detachTimer hne true).onList h)).call hne
  | round hwork _ _ =>
    -- no round begins before the work list is empty
    have hmem := h.mem
    rw [hwork] at hmem
    cases hmem

theorem SameFor.waiting (h : SameFor timer s s') (hs : Waiting small s timer now due level) :
    Waiting small s' timer now due level :=
  ⟨hs.le, h.timerJiffies.trans hs.timerJiffies, h.onList hs.onList, hs.stored, hs.near,
    fun hne => h.expires.trans (hs.expires hne)⟩

/-- **In the wheel:** the handler is called in the round of its tick. -/
theorem firesOnce_of_waiting (hrun : Spared small timer s events s')
    (h : Waiting small s timer now due level) : FiresOnce timer (due - now + 1) events s' := by
  induction hrun generalizing now level with
  | nil =>
    refine ⟨fun _ _ => not_mem_nil, Nat.zero_le 1, fun hover => ?_⟩
    rcases hover with hover | hover
    · cases hover
    · cases hover.1
  | quiet hsame _ ih => exact (ih (hsame.waiting h)).quiet
  | @call s _ other rest _ hwork _ ih =>
    have hne : other ≠ timer := by
      rintro rfl
      have hcount := h.onList .work
      rw [hwork, count_cons_self, if_neg TimerSlot.noConfusion] at hcount
      cases hcount
    exact (ih ((sameFor_detachTimer hne true).waiting h)).call hne
  | round _ hrest ih =>
    obtain ⟨hnow, hlater⟩ := h.startRound
    by_cases hdue : due = now
    · rw [hdue, Nat.sub_self]
      exact (firesOnce_of_work hrest (hnow hdue)).round _
    · obtain ⟨level', h'⟩ := hlater hdue
      have hle := h.le_due
      have hrounds : due - now + 1 = due - (now + 1) + 1 + 1 := by omega
      rw [hrounds]
      exact (ih h').round _

theorem ticksOf_getElem? (hrun : Spared small timer s events s') {k : Nat} {tick : BitVec 32}
    (htick : (ticksOf events)[k]? = some tick) : tick = s.timerJiffies + BitVec.ofNat 32 k := by
  induction hrun generalizing k with
  | nil => cases htick
  | quiet hsame _ ih =>
    rw [← hsame.timerJiffies]
    exact ih htick
  | call _ _ ih => exact ih htick
  | round _ _ ih =>
    cases k with
    | zero =>
      obtain rfl := some.inj htick
      exact (add_zero _).symm
    | succ k =>
      rw [ih htick, timerJiffies_startRound, Nat.add_comm k 1, ofNat_add, add_assoc]
      rfl

variable (expires timerJiffies : BitVec 32)

/-- The later of two times, in the order that wraps around. -/
def laterOf : BitVec 32 :=
  if (expires - timerJiffies).toInt < 0 then timerJiffies else expires

/-- How many rounds come before the one of that time. -/
def roundsBefore : Nat :=
  if (expires - timerJiffies).toInt < 0 then 0 else (expires - timerJiffies).toNat

theorem add_roundsBefore :
    timerJiffies + BitVec.ofNat 32 (roundsBefore expires timerJiffies) = laterOf expires timerJiffies := by
  unfold roundsBefore laterOf
  split
  · exact add_zero _
  · rw [ofNat_toNat, setWidth_eq, add_comm, sub_add_cancel]

/-- **A timer that is set** waits for its tick. -/
theorem waiting_rawModTimer (small : Bool) (h : PendingOk s) (timer : Nat) (expires : BitVec 32) :
    ∃ level, Waiting small (rawModTimer small s timer expires).2 timer s.timerJiffies.toNat
      (s.timerJiffies.toNat + roundsBefore expires s.timerJiffies) level := by
  obtain ⟨honList, hjiffies, hexpires⟩ := onList_rawModTimer small h timer expires
  have hnow : s.timerJiffies = BitVec.ofNat 32 s.timerJiffies.toNat := by
    rw [BitVec.ofNat_toNat, BitVec.setWidth_eq]
  by_cases hpast : (expires - s.timerJiffies).toInt < 0
  · have hrounds : roundsBefore expires s.timerJiffies = 0 := if_pos hpast
    rw [timerSlot_past hpast, hnow, tvIndex_ofNat (Nat.zero_le 4)] at honList
    rw [hrounds, Nat.add_zero]
    refine ⟨0, Nat.zero_le 4, hjiffies.trans hnow, honList, ⟨?_, fun _ => ?_⟩, by omega,
      fun hne => absurd rfl hne⟩
    · rw [visit_zero]
    · exact Nat.lt_add_of_pos_right (Nat.two_pow_pos _)
  · have hrounds : roundsBefore expires s.timerJiffies < 2 ^ 31 := by
      unfold roundsBefore
      rw [if_neg hpast]
      rw [toInt_eq_toNat_cond] at hpast
      split at hpast
      · omega
      · have hlt := (expires - s.timerJiffies).isLt
        omega
    have hdue : expires =
        BitVec.ofNat 32 (s.timerJiffies.toNat + roundsBefore expires s.timerJiffies) := by
      rw [ofNat_add, ← hnow, add_roundsBefore]
      exact (if_neg hpast).symm
    obtain ⟨level, hle, hslot, hstored, -⟩ := timerSlot_ofNat small
      (Nat.le_add_right s.timerJiffies.toNat (roundsBefore expires s.timerJiffies)) (by omega)
    rw [← hdue, ← hnow] at hslot
    rw [hslot] at honList
    exact ⟨level, hle, hjiffies.trans hnow, honList, hstored, by omega, fun _ => hexpires.trans hdue⟩

end Runs

/-- **Timers fire exactly on time.** A timer that is set at any time, and neither set again nor deleted,
has its handler called once, in the round of the later of the tick it is set to and the next tick. -/
theorem timers_fire_on_time (small : Bool) (jiffies : BitVec 32) (expires₀ : Nat → BitVec 32)
    {before after : List TimerOp} {timer : Nat} {expires : BitVec 32}
    {events₀ events : List TimerEvent} {s s' : TimerState}
    (hbefore : run (TimerOp.exec small) (initTimers jiffies expires₀) before = some (events₀, s))
    (hafter : ∀ op ∈ after, op.timer? ≠ some timer)
    (hrun : run (TimerOp.exec small) (rawModTimer small s timer expires).2 after = some (events, s')) :
    FiresOnce timer (roundsBefore expires s.timerJiffies + 1) events s' ∧
      ∀ tick, (ticksOf events)[roundsBefore expires s.timerJiffies]? = some tick →
        tick = laterOf expires s.timerJiffies := by
  have hpending : PendingOk s := run_invariant TimerOp.pendingOk
    (fun slot timer hmem => absurd hmem not_mem_nil) (fun _ _ => trivial) hbefore
  obtain ⟨level, hwaiting⟩ := waiting_rawModTimer small hpending timer expires
  have hspared := spared_of_run hafter hrun
  have hfires := firesOnce_of_waiting hspared hwaiting
  rw [Nat.add_sub_cancel_left] at hfires
  refine ⟨hfires, fun tick htick => ?_⟩
  rw [ticksOf_getElem? hspared htick, (onList_rawModTimer small hpending timer expires).2.1,
    add_roundsBefore]

/-- A timer that is set to two ticks from now, just before the counter wraps around. -/
theorem timers_fire_on_time_wrap : ∃ events s', run (TimerOp.exec false)
        (rawModTimer false (initTimers 0xffffffff (fun _ => 0)) 7 1).2
        [.tick 5, .run, .run, .run, .run, .run] = some (events, s') ∧
      ticksOf events = [0xffffffff, 0, 1, 2] ∧ callsIn 3 events = [7] ∧
      FiresOnce 7 3 events s' := by
  have hbefore : run (TimerOp.exec false) (initTimers 0xffffffff fun _ => 0) [] =
      some ([], initTimers 0xffffffff fun _ => 0) := rfl
  have hafter : ∀ op ∈ [TimerOp.tick 5, .run, .run, .run, .run, .run], op.timer? ≠ some 7 := by
    decide
  have hrun : run (TimerOp.exec false) (rawModTimer false (initTimers 0xffffffff fun _ => 0) 7 1).2
      [.tick 5, .run, .run, .run, .run, .run] = some (_, _) := rfl
  exact ⟨_, _, hrun, rfl, rfl, (timers_fire_on_time false 0xffffffff (fun _ => 0) hbefore hafter hrun).1⟩

/-- **A deleted timer does not fire** until it is set again, whatever was done before or is done to others. -/
theorem del_timer_cancels (small : Bool) (jiffies : BitVec 32) (expires₀ : Nat → BitVec 32)
    {before after : List TimerOp} {timer : Nat} {events₀ events : List TimerEvent} {s s' : TimerState}
    (hbefore : run (TimerOp.exec small) (initTimers jiffies expires₀) before = some (events₀, s))
    (hafter : ∀ op ∈ after, op.timer? ≠ some timer)
    (hrun : run (TimerOp.exec small) (delTimer s timer).2 after = some (events, s')) (n : Nat) :
    timer ∉ callsIn n events := by
  have hpending : PendingOk s := run_invariant TimerOp.pendingOk
    (fun slot timer hmem => absurd hmem not_mem_nil) (fun _ _ => trivial) hbefore
  apply not_called_of_offLists (spared_of_run hafter hrun)
  unfold delTimer
  split
  · exact offLists_detachTimer true
  · rename_i hidle
    exact pendingOk_iff.mp hpending timer (Bool.eq_false_iff.mpr hidle)

/-- A timer is deleted that is on the work list already. -/
theorem del_timer_cancels_due : ∃ events₀ s events s', run (TimerOp.exec false) (initTimers 0 fun _ => 0)
        [.rawMod 7 0, .tick 1, .run] = some (events₀, s) ∧ s.lists .work = [7] ∧
      run (TimerOp.exec false) (delTimer s 7).2 [.run, .run] = some (events, s') ∧ 7 ∉ callsIn 0 events := by
  have hbefore : run (TimerOp.exec false) (initTimers 0 fun _ => 0) [.rawMod 7 0, .tick 1, .run] =
      some (_, _) := rfl
  have hafter : ∀ op ∈ [TimerOp.run, .run], op.timer? ≠ some 7 := by decide
  exact ⟨_, _, _, _, hbefore, rfl, rfl, del_timer_cancels false 0 (fun _ => 0) hbefore hafter rfl 0⟩

end Linux
