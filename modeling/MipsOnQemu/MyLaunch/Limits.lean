/-
# MipsOnQemu.MyLaunch.Limits -- `checkValidBmlist`

The client checks the result of a dry run before it sends anything: at most 512 entries in
all, at most `maxchild` in one list, and no list deeper than `maxlev`. The running total is
a static variable of the source that the outermost call resets; here it is threaded through
the recursion. Only the shape of the tree is looked at, so the check is stated for forests
of any labels.

In a debug build (`TOUCH_ANY_DEBUG`) the outermost call sets the total to 0 a second time,
after it has added its own entries; `debug` selects that build.
-/

import MipsOnQemu.MyLaunch.Merge

namespace MyLaunch

open KeyedForest

universe u v

variable {α : Type u} {β : Type v}

def browserBmMaxTotalCount : Nat := 512

/-! ## The check -/

variable (debug : Bool) (info : BrowserInfo)

/-- What a call of `checkValidBmlist` does before its loop, for a list of `count` entries at
`level`: the new total, or the first limit that is exceeded. -/
def checkCounts (level count total : Nat) : Except SyncStatus Nat :=
  let total := if level = 0 then if debug then 0 else count else total + count
  if total > browserBmMaxTotalCount then .error .failExceedTotalNum
  else if count > info.maxchild then .error .failExceedDirCount
  else if level > info.maxlev then .error .failExceedLevel
  else .ok total

mutual
/-- One turn of the loop of `checkValidBmlist` over a list at `level`: an entry with children
is checked by a call for them. -/
def checkValidEntry (level : Nat) : Rose α → Nat → Except SyncStatus Nat
  | .node _ list, total =>
    if list.isEmpty then .ok total
    else
      match checkCounts debug info (level + 1) list.length total with
      | .error e => .error e
      | .ok total => checkValidEntries (level + 1) list total

/-- The loop of `checkValidBmlist` over a list at `level`. -/
def checkValidEntries (level : Nat) : Forest α → Nat → Except SyncStatus Nat
  | [], total => .ok total
  | t :: l, total =>
    match checkValidEntry level t total with
    | .error e => .error e
    | .ok total => checkValidEntries level l total
end

/-- `tz::checkValidBmlist` at level 0. -/
def checkValidBmlist (l : Forest α) : Except SyncStatus Nat :=
  match checkCounts debug info 0 l.length 0 with
  | .error e => .error e
  | .ok total => checkValidEntries debug info 0 l total

def Accepted (l : Forest α) : Prop := ∃ total, checkValidBmlist debug info l = .ok total

/-! ## What it accepts -/

mutual
def countTree : Rose α → Nat
  | .node _ list => countEntries list + 1

def countEntries : Forest α → Nat
  | [] => 0
  | t :: l => countTree t + countEntries l
end

mutual
/-- The number of lists below an entry, one inside the other. -/
def depthBelow : Rose α → Nat
  | .node _ list => if list.isEmpty then 0 else depth list + 1

/-- The number of directories around the deepest entry. -/
def depth : Forest α → Nat
  | [] => 0
  | t :: l => max (depthBelow t) (depth l)
end

/-- No list of the forest has more than `n` entries. -/
def WidthAtMost (n : Nat) (l : Forest α) : Prop :=
  l.length ≤ n ∧ Everywhere (fun _ list => list.length ≤ n) l

variable {debug : Bool} {info : BrowserInfo} {l : Forest α}

theorem checkCounts_ok {level count total total' : Nat}
    (h : checkCounts debug info (level + 1) count total = .ok total') :
    total' = total + count ∧ total' ≤ browserBmMaxTotalCount ∧ count ≤ info.maxchild ∧
      level + 1 ≤ info.maxlev := by
  simp only [checkCounts, Nat.succ_ne_zero, if_false] at h
  split at h
  · cases h
  · split at h
    · cases h
    · split at h
      · cases h
      · cases h
        refine ⟨rfl, ?_, ?_, ?_⟩ <;> omega

theorem checkCounts_error {level count total : Nat} {e : SyncStatus}
    (h : checkCounts debug info level count total = .error e) :
    e ≠ .successNoModify ∧ e ≠ .successWithModify := by
  unfold checkCounts at h
  dsimp only at h
  split_ifs at h <;> cases h <;> decide

theorem checkValidEntries_error :
    ∀ {level total : Nat} {e : SyncStatus}, checkValidEntries debug info level l total = .error e →
      e ≠ .successNoModify ∧ e ≠ .successWithModify := by
  induction l using forest_induction with
  | nil =>
    intro level total e h
    cases h
  | cons a list rest ihlist ihrest =>
    intro level total e h
    rw [checkValidEntries, checkValidEntry] at h
    split_ifs at h
    · exact ihrest h
    · cases hcounts : checkCounts debug info (level + 1) list.length total with
      | error e' =>
        simp only [hcounts] at h
        cases h
        exact checkCounts_error hcounts
      | ok total₁ =>
        simp only [hcounts] at h
        cases hbelow : checkValidEntries debug info (level + 1) list total₁ with
        | error e' =>
          rw [hbelow] at h
          cases h
          exact ihlist hbelow
        | ok total₂ =>
          rw [hbelow] at h
          exact ihrest h

theorem checkValidBmlist_error {e : SyncStatus} (h : checkValidBmlist debug info l = .error e) :
    e ≠ .successNoModify ∧ e ≠ .successWithModify := by
  rw [checkValidBmlist] at h
  cases hcounts : checkCounts debug info 0 l.length 0 with
  | error e' =>
    simp only [hcounts] at h
    cases h
    exact checkCounts_error hcounts
  | ok total =>
    simp only [hcounts] at h
    exact checkValidEntries_error h

/-- What a loop over a list at `level` has checked when it ends well: the lists below are
counted, none of them is too long, and none lies too deep. -/
theorem checkValidEntries_ok :
    ∀ {level total total' : Nat}, checkValidEntries debug info level l total = .ok total' →
      total' + l.length = total + countEntries l ∧
      (total ≤ browserBmMaxTotalCount → total' ≤ browserBmMaxTotalCount) ∧
      Everywhere (fun _ list => list.length ≤ info.maxchild) l ∧
      (level ≤ info.maxlev → level + depth l ≤ info.maxlev) := by
  induction l using forest_induction with
  | nil =>
    intro level total total' h
    cases h
    exact ⟨rfl, id, trivial, id⟩
  | cons a list rest ihlist ihrest =>
    intro level total total' h
    rw [checkValidEntries, checkValidEntry] at h
    cases list with
    | nil =>
      obtain ⟨hcount, htotal, hwidth, hdepth⟩ := ihrest h
      refine ⟨?_, htotal, ⟨⟨Nat.zero_le _, trivial⟩, hwidth⟩, ?_⟩
      · simp only [countEntries, countTree, List.length_cons] at hcount ⊢
        omega
      · simpa [depth, depthBelow] using hdepth
    | cons t list =>
      rw [if_neg (by simp)] at h
      cases hcounts : checkCounts debug info (level + 1) (t :: list).length total with
      | error e =>
        rw [hcounts] at h
        cases h
      | ok total₁ =>
        simp only [hcounts] at h
        cases hbelow : checkValidEntries debug info (level + 1) (t :: list) total₁ with
        | error e =>
          rw [hbelow] at h
          cases h
        | ok total₂ =>
          rw [hbelow] at h
          obtain ⟨htotal₁, hle₁, hchild, hlevel⟩ := checkCounts_ok hcounts
          obtain ⟨hcount₂, hle₂, hwidth₂, hdepth₂⟩ := ihlist hbelow
          obtain ⟨hcount, hle, hwidth, hdepth⟩ := ihrest h
          have hdeep := hdepth₂ hlevel
          refine ⟨?_, fun _ => hle (hle₂ hle₁), ⟨⟨hchild, hwidth₂⟩, hwidth⟩, fun hl => ?_⟩
          · simp only [countEntries, countTree, List.length_cons] at hcount hcount₂ htotal₁ ⊢
            omega
          · have hrest := hdepth hl
            simp only [depth, depthBelow, List.isEmpty_cons, Bool.false_eq_true, if_false] at hdeep ⊢
            omega

/-- **What is accepted** has at most 512 entries, at most `maxchild` in one list, and at most
`maxlev` directories around an entry. A debug build does not count the outermost list. -/
theorem Accepted.within (h : Accepted debug info l) :
    countEntries l ≤ browserBmMaxTotalCount + (if debug then l.length else 0) ∧
      WidthAtMost info.maxchild l ∧ depth l ≤ info.maxlev := by
  obtain ⟨total, h⟩ := h
  rw [checkValidBmlist] at h
  -- what the outermost call has added when its loop starts
  have hstart : checkCounts debug info 0 l.length 0 = .ok (if debug then 0 else l.length) ∧
      (if debug then 0 else l.length) ≤ browserBmMaxTotalCount ∧ l.length ≤ info.maxchild := by
    cases hcounts : checkCounts debug info 0 l.length 0 with
    | error e =>
      simp only [hcounts] at h
      cases h
    | ok total₀ =>
      cases debug <;> simp only [checkCounts, if_true, Bool.false_eq_true, if_false] at hcounts ⊢ <;>
        split_ifs at hcounts <;> cases hcounts <;> refine ⟨rfl, ?_, ?_⟩ <;> omega
  obtain ⟨hcounts, htotal, hchild⟩ := hstart
  simp only [hcounts] at h
  obtain ⟨hcount, hle, hwidth, hdepth⟩ := checkValidEntries_ok h
  have hle := hle htotal
  have hdepth := hdepth (Nat.zero_le _)
  refine ⟨?_, ⟨hchild, hwidth⟩, by omega⟩
  cases debug <;> simp only [if_true, Bool.false_eq_true, if_false] at hcount ⊢ <;> omega

/-- The list has too many entries, but not too many without the outermost ones. -/
def Uncounted (l : Forest α) : Prop :=
  browserBmMaxTotalCount < countEntries l ∧ countEntries l ≤ browserBmMaxTotalCount + l.length

/-! ## Only the shape matters -/

theorem isEmpty_mapForest (h : α → β) (l : Forest α) : (mapForest h l).isEmpty = l.isEmpty := by
  cases l <;> rfl

theorem length_mapForest (h : α → β) (l : Forest α) : (mapForest h l).length = l.length := by
  rw [mapForest_eq_map, List.length_map]

theorem countEntries_mapForest (h : α → β) (l : Forest α) : countEntries (mapForest h l) = countEntries l := by
  induction l using forest_induction with
  | nil => rfl
  | cons a list rest ihlist ihrest =>
    simp only [mapForest_cons, Rose.map_node, countEntries, countTree, ihlist, ihrest]

theorem checkValidEntries_mapForest (debug : Bool) (info : BrowserInfo) (h : α → β) (l : Forest α) :
    ∀ level total, checkValidEntries debug info level (mapForest h l) total
      = checkValidEntries debug info level l total := by
  induction l using forest_induction with
  | nil => exact fun _ _ => rfl
  | cons a list rest ihlist ihrest =>
    intro level total
    simp only [mapForest_cons, Rose.map_node, checkValidEntries, checkValidEntry, isEmpty_mapForest,
      length_mapForest, ihlist, ihrest]

theorem checkValidBmlist_mapForest (debug : Bool) (info : BrowserInfo) (h : α → β) (l : Forest α) :
    checkValidBmlist debug info (mapForest h l) = checkValidBmlist debug info l := by
  simp only [checkValidBmlist, length_mapForest, checkValidEntries_mapForest]

end MyLaunch
