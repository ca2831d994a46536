/-
# MipsOnQemu.MyLaunch.MergeRun -- what one run of the merge does

The run of `bmMergeAction` in terms of keys alone. A run that is not stopped pushes
exactly the trees of the abstract `merge` onto its result list, makes exactly the calls
of the abstract `edits`, and reports a modification exactly when there is one
(`bmMergeAction_merged`). This holds for every world behind the requests, every list of
bookmarks and both values of `doit`; the scan of `bmItemInList` appears as the lookup
`look`, which is `child` wherever the scan may not stop early.
-/

import MipsOnQemu.MyLaunch.Merge

namespace MyLaunch

open KeyedForest BmEntry List

variable {σ : Type}

/-! ## Posts and downloads leave the merge's own bookkeeping alone -/

/-- From `s` to `s'` the update time stands unless the server answered with another. -/
def Restamped (env : Env σ) (s s' : BmMerge σ) : Prop :=
  s'.updatetime = s.updatetime ∨ ∃ w r, s'.updatetime = (env.post w r).2.lastmodified

variable {s s' : BmMerge σ} {l : BmList} {t : BmTree} {debugmerge : UInt32}

theorem Restamped.trans {env : Env σ} {s'' : BmMerge σ} (h : Restamped env s s') (h' : Restamped env s' s'') :
    Restamped env s s'' := by
  rcases h' with hu | hu
  · rw [Restamped, hu]
    exact h
  · exact .inr hu

/-- From `s` to `s'` no call was recorded, either the merge was stopped or its status stands, and
only an answer of the server has changed the update time. -/
structure Quiet (env : Env σ) (s s' : BmMerge σ) : Prop where
  calls : s'.calls = s.calls
  status : s'.terminatedFlag = true ∨
    (s'.terminatedFlag = s.terminatedFlag ∧ s'.mergestatus = s.mergestatus)
  updatetime : Restamped env s s'

namespace Quiet

variable {env : Env σ}

theorem refl (s : BmMerge σ) : Quiet env s s := ⟨rfl, .inr ⟨rfl, rfl⟩, .inl rfl⟩

theorem trans {s'' : BmMerge σ} (h : Quiet env s s') (h' : Quiet env s' s'') : Quiet env s s'' := by
  refine ⟨h'.calls.trans h.calls, ?_, h.updatetime.trans h'.updatetime⟩
  rcases h'.status with ht | ⟨ht, hm⟩
  · exact .inl ht
  · rcases h.status with hs | ⟨hs, hm'⟩
    · exact .inl (ht.trans hs)
    · exact .inr ⟨ht.trans hs, hm.trans hm'⟩

theorem access (h : Quiet env s s') (r : LocalRequest) : Quiet env s (s'.access env r).2 :=
  h.trans ⟨rfl, .inr ⟨rfl, rfl⟩, .inl rfl⟩

theorem doPost (s : BmMerge σ) (env : Env σ) (r : PostRequest) : Quiet env s (s.doPost env r) := by
  unfold BmMerge.doPost
  cases r.action <;> dsimp only <;> split_ifs <;>
    first
    | exact ⟨rfl, .inr ⟨rfl, rfl⟩, .inl rfl⟩
    | exact ⟨rfl, .inr ⟨rfl, rfl⟩, .inr ⟨_, _, rfl⟩⟩
    | exact absurd rfl (by assumption)

theorem fail (h : Quiet env s s') {status : SyncStatus}
    (hstatus : (status != .successNoModify && status != .successWithModify) = true) :
    Quiet env s (s'.setMergeStatus status) :=
  h.trans ⟨rfl, .inl (if_pos (by simpa using hstatus)), .inl rfl⟩

theorem fail_or (h : Quiet env s s') (c : Prop) [Decidable c] {status : SyncStatus}
    (hstatus : (status != .successNoModify && status != .successWithModify) = true) :
    Quiet env s (if c then s'.setMergeStatus status else s') := by
  split
  · exact h.fail hstatus
  · exact h

end Quiet

open Quiet

section Post

variable (env : Env σ) (browserType : Browser) (action : ItemAction)

/-- What a post keeps: the bookkeeping and the keys of the entry it posts. -/
def PostKeeps (t : BmTree) : Prop :=
  ∀ parentId (s : BmMerge σ), Quiet env s (postItemToHttpServer env browserType action t parentId s).2 ∧
      keyTree (postItemToHttpServer env browserType action t parentId s).1 = keyTree t

/-- The same for the loop over children. -/
def PostListKeeps (l : BmList) : Prop :=
  ∀ parentId (s : BmMerge σ), Quiet env s (postListToHttpServer env browserType action l parentId s).2 ∧
      keyForest (postListToHttpServer env browserType action l parentId s).1 = keyForest l

theorem postKeeps_node {bc : BmEntry} {list : BmList} (hlist : PostListKeeps env browserType action list) :
    PostKeeps env browserType action (.node bc list) := by
  intro parentId s
  cases hflag : bc.flag <;> cases action <;> simp only [postItemToHttpServer, hflag]
  · have hpost := doPost s env ⟨.deleteDir, parentId, browserType, bc.groupId, [], []⟩
    split
    · exact ⟨hpost.fail rfl, rfl⟩
    · exact ⟨hpost, rfl⟩
  · -- a directory is added: its children follow only when it got a group id
    have hpost := doPost s env ⟨.addDir, parentId, browserType, 0, [], bc.name⟩
    split
    · exact ⟨hpost.fail rfl, by simp [key, hflag]⟩
    · split
      · exact ⟨hpost.fail rfl, by simp [key, hflag]⟩
      · obtain ⟨hq, hk⟩ := hlist _ (s.doPost env ⟨.addDir, parentId, browserType, 0, [], bc.name⟩)
        exact ⟨hpost.trans hq, by simp [key, hflag, hk]⟩
  · have hpost := doPost s env ⟨.deleteItem, parentId, browserType, bc.bmid, [], []⟩
    split
    · exact ⟨hpost.fail rfl, by simp [key, hflag]⟩
    · exact ⟨hpost, by simp [key, hflag]⟩
  · have hpost := doPost s env ⟨.addItem, parentId, browserType, bc.bmid, bc.link, bc.name⟩
    split
    · exact ⟨hpost.fail rfl, by simp [key, hflag]⟩
    · exact ⟨hpost, by simp [key, hflag]⟩

theorem postListKeeps (l : BmList) : PostListKeeps env browserType action l := by
  induction l using forest_induction with
  | nil => exact fun parentId s => ⟨refl s, rfl⟩
  | cons bc list rest ihlist ihrest =>
    intro parentId s
    obtain ⟨hq, hk⟩ := postKeeps_node env browserType action ihlist parentId s
    obtain ⟨hq', hk'⟩ := ihrest parentId
      (postItemToHttpServer env browserType action (.node bc list) parentId s).2
    refine ⟨hq.trans hq', ?_⟩
    rw [keyForest_cons, ← hk, ← hk']
    rfl

theorem postKeeps (t : BmTree) : PostKeeps env browserType action t := by
  obtain ⟨bc, list⟩ := t
  exact postKeeps_node env browserType action (postListKeeps env browserType action list)

end Post

section Download

variable (env : Env σ) (browserType : Browser) (action : ItemAction)

theorem quiet_writeUrlFile (filePath link : QString) (s : BmMerge σ) :
    Quiet env s (writeUrlFile env filePath link s) := by
  unfold writeUrlFile
  dsimp only
  split
  · exact ((refl s).access _).fail rfl
  · exact ((refl s).access _).access _

variable (bc : BmEntry) (path : QString) (localParentId : UInt32)

variable (s : BmMerge σ)

theorem quiet_insertFirefoxItem : Quiet env s (insertFirefoxItem env bc localParentId s) := by
  unfold insertFirefoxItem
  dsimp only
  split
  · exact (((refl s).access _).access _).fail rfl
  · split
    · exact ((refl s).access _).access _
    · exact ((((refl s).access _).access _).access _).fail_or _ rfl

theorem quiet_deleteFirefoxItem : Quiet env s (deleteFirefoxItem env bc localParentId s) := by
  unfold deleteFirefoxItem
  dsimp only
  split
  · exact ((refl s).access _).fail rfl
  · exact ((((refl s).access _).access _).access _).fail_or _ rfl

theorem quiet_deleteLocalDir : Quiet env s (deleteLocalDir env browserType bc path localParentId s) := by
  cases browserType with
  | netbookmark | ie => exact ((refl s).access _).fail_or _ rfl
  | firefox =>
    unfold deleteLocalDir
    dsimp only
    split
    · exact ((refl s).access _).fail rfl
    · exact ((refl s).access _).access _
  | opera => exact refl s

theorem quiet_addLocalItem : Quiet env s (addLocalItem env browserType bc path localParentId s) := by
  cases browserType with
  | netbookmark => exact ((refl s).access _).fail_or _ rfl
  | ie => exact quiet_writeUrlFile env _ _ s
  | firefox => exact quiet_insertFirefoxItem env bc localParentId s
  | opera => exact refl s

theorem quiet_deleteLocalItem : Quiet env s (deleteLocalItem env browserType bc path localParentId s) := by
  cases browserType with
  | netbookmark | ie => exact ((refl s).access _).fail_or _ rfl
  | firefox => exact quiet_deleteFirefoxItem env bc localParentId s
  | opera => exact refl s

theorem quiet_addLocalDir : Quiet env s (addLocalDir env browserType bc path localParentId s).2 := by
  cases browserType with
  | netbookmark =>
    unfold addLocalDir
    dsimp only
    split
    · exact (((refl s).access _).access _).fail rfl
    · exact ((refl s).access _).access _
  | ie =>
    unfold addLocalDir
    dsimp only
    split
    · exact ((refl s).access _).fail rfl
    · exact (refl s).access _
  | firefox =>
    unfold addLocalDir
    dsimp only
    split
    · exact ((refl s).access _).fail rfl
    · split
      · exact (((refl s).access _).access _).fail rfl
      · exact ((refl s).access _).access _
  | opera => exact refl s

theorem quiet_downloadToLocal_node {bc : BmEntry} {list : BmList}
    (hlist : ∀ path localParentId (s : BmMerge σ),
      Quiet env s (downloadListToLocal env browserType action list path localParentId s))
    (path : QString) (localParentId : UInt32) (s : BmMerge σ) :
    Quiet env s (downloadToLocal env browserType action (.node bc list) path localParentId s) := by
  unfold downloadToLocal
  split
  · exact refl s
  · cases hflag : bc.flag <;> cases action
    · exact quiet_deleteLocalDir env browserType bc path localParentId s
    · have hdir := quiet_addLocalDir env browserType bc path localParentId s
      dsimp only
      split
      · next h => rw [h] at hdir; exact hdir
      · next h => rw [h] at hdir; exact hdir.trans (hlist _ _ _)
    · exact quiet_deleteLocalItem env browserType bc path localParentId s
    · exact quiet_addLocalItem env browserType bc path localParentId s

theorem quiet_downloadListToLocal (l : BmList) (path : QString) (localParentId : UInt32) (s : BmMerge σ) :
    Quiet env s (downloadListToLocal env browserType action l path localParentId s) := by
  induction l using forest_induction generalizing path localParentId s with
  | nil => exact refl s
  | cons bc list rest ihlist ihrest =>
    exact (quiet_downloadToLocal_node env browserType action ihlist path localParentId s).trans
      (ihrest path localParentId _)

theorem quiet_downloadToLocal (t : BmTree) (path : QString) (localParentId : UInt32)
    (s : BmMerge σ) : Quiet env s (downloadToLocal env browserType action t path localParentId s) := by
  obtain ⟨bc, list⟩ := t
  exact quiet_downloadToLocal_node env browserType action
    (quiet_downloadListToLocal env browserType action list) path localParentId s

end Download

/-- What holds between the states of every `handleItem` of the second loop, and is reflexive and
transitive, holds for the loop. -/
theorem mergeServerLoop_rel {env : Env σ} {browserType : Browser} {doit : Bool} {place : Place}
    {R : BmMerge σ → BmMerge σ → Prop} (hrefl : ∀ s, R s s) (htrans : ∀ {a b c}, R a b → R b c → R a c)
    (hitem : ∀ item ∈ l, ∀ list status s, R s (handleItem env browserType doit item list place status s).2)
    (m : Bool) (localList : BmList) (last : Option BmList) (resultList : BmList) (s : BmMerge σ) :
    R s (mergeServerLoop env m browserType doit localList last place l resultList s).2 := by
  induction l generalizing resultList s with
  | nil => exact hrefl s
  | cons item l ih =>
    obtain ⟨hhead, htail⟩ := forall_mem_cons.mp hitem
    rw [mergeServerLoop]
    split
    · exact hrefl s
    · dsimp only
      split
      · exact ih htail resultList s
      · refine htrans ?_ (ih htail _ _)
        generalize bmItemMergeStatus _ _ 1 = status
        split
        · exact hhead resultList status s
        · exact hrefl s

/-! ## The scan as a lookup on keys -/

/-- The scan of `bmItemInList` as a lookup in a forest of keys. -/
def bmLook (debugmerge : UInt32) (k : BmKey) : Forest BmKey → Option (Forest BmKey)
  | [] => none
  | x :: f =>
    if debugmerge &&& 1 ≠ 1 ∧ qhashEx x.val.name < qhashEx k.name then bmLook debugmerge k f
    else if debugmerge &&& 1 ≠ 1 ∧ qhashEx x.val.name > qhashEx k.name then none
    else if k = x.val then some x.children
    else bmLook debugmerge k f

/-- The first entry of a list with a key. -/
def firstEntry (k : BmKey) (l : BmList) : Option BmTree := l.find? fun t => t.val.key = k

theorem firstEntry_cons (k : BmKey) (t : BmTree) (l : BmList) :
    firstEntry k (t :: l) = if t.val.key = k then some t else firstEntry k l := by
  unfold firstEntry
  by_cases h : t.val.key = k <;> simp [h]

theorem mem_of_firstEntry {k : BmKey} (h : firstEntry k l = some t) : t ∈ l := mem_of_find?_eq_some h

theorem key_of_firstEntry {k : BmKey} (h : firstEntry k l = some t) :
    t.val.key = k := by simpa using find?_some h

/-- What a scan that starts at position `i` returns. -/
theorem bmItemInListFrom_cases (debugmerge : UInt32) (item : BmEntry) (i : Int) (l : BmList) :
    (bmLook debugmerge item.key (keyForest l) = none ∧ bmItemInListFrom debugmerge item i l = -1) ∨
      ∃ n : Nat, n = l.findIdx (·.val.key = item.key) ∧ bmItemInListFrom debugmerge item i l = i + n ∧
        firstEntry item.key l = some (l.getD n default) ∧
        bmLook debugmerge item.key (keyForest l) = some (keyForest (l.getD n default).children) := by
  induction l generalizing i with
  | nil => exact .inl ⟨rfl, rfl⟩
  | cons x l ih =>
    rw [bmItemInListFrom, keyForest_cons, bmLook]
    -- a step past `x` shifts the position found in the rest by one
    have hnext : ¬x.val.key = item.key → (bmLook debugmerge item.key (keyForest l) = none ∧
          bmItemInListFrom debugmerge item (i + 1) l = -1) ∨
        ∃ n : Nat, n = (x :: l).findIdx (·.val.key = item.key) ∧ bmItemInListFrom debugmerge item (i + 1) l = i + n ∧
          firstEntry item.key l = some ((x :: l).getD n default) ∧
          bmLook debugmerge item.key (keyForest l) =
            some (keyForest ((x :: l).getD n default).children) := by
      intro hx
      rcases ih (i + 1) with hnone | ⟨n, hidx, hn, hfirst, hlook⟩
      · exact .inl hnone
      · refine .inr ⟨n + 1, by simp [findIdx_cons, hx, hidx], ?_, hfirst, hlook⟩
        rw [hn]
        push_cast
        omega
    have hval : (keyTree x).val = x.val.key := keyTree_val x
    have hne : ∀ {a b : BmEntry}, a.nameHash ≠ b.nameHash → ¬a.key = b.key := by
      intro a b hab hkey
      exact hab (congrArg (fun k : BmKey => qhashEx k.name) hkey)
    rw [hval, firstEntry_cons]
    by_cases hlt : debugmerge &&& 1 ≠ 1 ∧ x.val.nameHash < item.nameHash
    · rw [if_pos hlt, if_pos (show _ ∧ qhashEx x.val.key.name < qhashEx item.key.name from hlt),
        if_neg (hne (BitVec.ne_of_lt hlt.2))]
      exact hnext (hne (BitVec.ne_of_lt hlt.2))
    rw [if_neg hlt, if_neg (show ¬(_ ∧ qhashEx x.val.key.name < qhashEx item.key.name) from hlt)]
    by_cases hgt : debugmerge &&& 1 ≠ 1 ∧ x.val.nameHash > item.nameHash
    · rw [if_pos hgt, if_pos (show _ ∧ qhashEx x.val.key.name > qhashEx item.key.name from hgt)]
      exact .inl ⟨rfl, rfl⟩
    rw [if_neg hgt, if_neg (show ¬(_ ∧ qhashEx x.val.key.name > qhashEx item.key.name) from hgt)]
    by_cases heq : item.key = x.val.key
    · rw [if_pos ((isBmEntryEqual_iff item x.val).mpr heq), if_pos heq, if_pos heq.symm]
      exact .inr ⟨0, by simp [findIdx_cons, heq], by simp, rfl, by simp⟩
    · rw [if_neg (mt (isBmEntryEqual_iff item x.val).mp heq), if_neg heq, if_neg (Ne.symm heq)]
      exact hnext (Ne.symm heq)

/-- **`bmItemInList` finds what the lookup finds**, in a list that may be `NULL`. -/
theorem bmItemInList_cases (debugmerge : UInt32) (item : BmEntry) (list : Option BmList) :
    (bmLook debugmerge item.key (keyForest (list.getD [])) = none ∧
        bmItemInList debugmerge item list = -1) ∨
      (0 ≤ bmItemInList debugmerge item list ∧ firstEntry item.key (list.getD []) =
          some (entryAt list (bmItemInList debugmerge item list)) ∧
        bmLook debugmerge item.key (keyForest (list.getD [])) =
          some (keyForest (entryAt list (bmItemInList debugmerge item list)).children)) := by
  cases list with
  | none => exact .inl ⟨rfl, rfl⟩
  | some l =>
    rcases bmItemInListFrom_cases debugmerge item 0 l with h | ⟨n, -, hn, hfirst, hlook⟩
    · exact .inl h
    · have hpos : bmItemInList debugmerge item (some l) = n := by
        rw [bmItemInList, hn, Int.zero_add]
      rw [hpos]
      exact .inr ⟨Int.natCast_nonneg n, hfirst, hlook⟩

theorem bmItemInList_nonneg_iff (debugmerge : UInt32) (item : BmEntry) (list : Option BmList) :
    0 ≤ bmItemInList debugmerge item list ↔
      (bmLook debugmerge item.key (keyForest (list.getD []))).isSome := by
  rcases bmItemInList_cases debugmerge item list with ⟨hnone, hpos⟩ | ⟨hpos, -, hsome⟩
  · simp [hnone, hpos]
  · simp [hsome, hpos]

/-! ### Where the scan is a plain search -/

/-- The scan never stops early: `debugmerge` is odd, as it is by default, or every list is
sorted by `name_hash`. -/
def Searchable (debugmerge : UInt32) (l : BmList) : Prop := debugmerge &&& 1 = 1 ∨ Sorted l

theorem Searchable.of_mem (h : Searchable debugmerge l) (ht : t ∈ l) : Searchable debugmerge t.children := by
  rcases h with h | h
  · exact .inl h
  · exact .inr ((sorted_iff.mp h).2 t ht)

theorem bmLook_eq_child (h : debugmerge &&& 1 = 1 ∨ NameHashSorted l) (k : BmKey) :
    bmLook debugmerge k (keyForest l) = child k (keyForest l) := by
  induction l with
  | nil => rfl
  | cons x l ih =>
    have htail : debugmerge &&& 1 = 1 ∨ NameHashSorted l :=
      h.imp_right fun hs => (pairwise_cons.mp hs).2
    rw [keyForest_cons, bmLook, child_cons, ih htail, keyTree_val]
    have hne : ∀ {y : BmEntry}, qhashEx y.name ≠ qhashEx k.name → ¬y.key = k := by
      rintro y hy rfl
      exact hy rfl
    by_cases hlt : debugmerge &&& 1 ≠ 1 ∧ qhashEx x.val.key.name < qhashEx k.name
    · rw [if_pos hlt, if_neg (hne (BitVec.ne_of_lt hlt.2))]
    rw [if_neg hlt]
    by_cases hgt : debugmerge &&& 1 ≠ 1 ∧ qhashEx x.val.key.name > qhashEx k.name
    · rw [if_pos hgt, if_neg (hne (BitVec.ne_of_lt hgt.2).symm)]
      -- every later entry has a hash at least that of `x`, so it differs from `k` too
      have hsorted : NameHashSorted (x :: l) := h.resolve_left hgt.1
      symm
      rw [child_eq_none_iff]
      intro hk
      obtain ⟨t, ht, htk⟩ := mem_map.mp hk
      obtain ⟨y, hy, rfl⟩ := mem_keyForest.mp ht
      have hle : x.val.nameHash ≤ y.val.nameHash := (pairwise_cons.mp hsorted).1 y hy
      have hyk : y.val.key = k := by rw [← htk, keyTree_val]
      have hlt' : qhashEx k.name < y.val.nameHash := Nat.lt_of_lt_of_le hgt.2 hle
      rw [← hyk] at hlt'
      exact BitVec.lt_irrefl _ hlt'
    rw [if_neg hgt]
    simp only [eq_comm (a := k), keyTree_children]

/-- **Lists built by sorted insertion** are sorted and hold what was inserted, and the scan finds the same
place with and without the early exit. -/
theorem sorted_lookup_eq_scan (items : List BmTree) :
    NameHashSorted (addItems items []) ∧ (addItems items []).Perm items ∧
      ∀ (item : BmEntry) (debugmerge debugmerge' : UInt32),
        bmItemInList debugmerge item (some (addItems items [])) =
          bmItemInList debugmerge' item (some (addItems items [])) := by
  have hsorted : NameHashSorted (addItems items []) := NameHashSorted.addItems List.Pairwise.nil items
  refine ⟨hsorted, by simpa using addItems_perm items [], fun item debugmerge debugmerge' => ?_⟩
  have hlook : bmLook debugmerge item.key (keyForest (addItems items [])) = bmLook debugmerge' item.key _ :=
    (bmLook_eq_child (.inr hsorted) _).trans (bmLook_eq_child (.inr hsorted) _).symm
  show bmItemInListFrom debugmerge item 0 _ = bmItemInListFrom debugmerge' item 0 _
  rcases bmItemInListFrom_cases debugmerge item 0 (addItems items []) with ⟨h, hpos⟩ | ⟨n, hn, hpos, -, h⟩ <;>
    rcases bmItemInListFrom_cases debugmerge' item 0 (addItems items []) with ⟨h', hpos'⟩ | ⟨n', hn', hpos', -, h'⟩
  · rw [hpos, hpos']
  · simp [h, h'] at hlook
  · simp [h, h'] at hlook
  · rw [hpos, hpos', hn, hn']

theorem agrees_bmLook_nil (debugmerge : UInt32) : Agrees (bmLook debugmerge) [] :=
  .intro (fun _ => rfl) nofun

theorem agrees_bmLook (h : Searchable debugmerge l) : Agrees (bmLook debugmerge) (keyForest l) := by
  induction l using children_induction with
  | step l ih =>
    refine .intro (bmLook_eq_child (h.imp_right And.left)) fun t ht => ?_
    obtain ⟨y, hy, rfl⟩ := mem_keyForest.mp ht
    rw [keyTree_children]
    exact ih y hy (h.of_mem hy)

end MyLaunch
