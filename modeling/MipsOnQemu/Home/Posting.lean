/-
# MipsOnQemu.Home.Posting -- the client's posts meet the server's limits

The client validates a tree with `checkValidBmlist` before it posts it, the server checks each
post again with its own counts. Here the two are run against each other: `serverEnv` answers the
posts of the merge with the scripts of the server, and `postListToHttpServer` sends a tree into
an account that holds nothing yet.

The client lets a list lie `maxlev` directories deep, the server wants every directory at a level
below `maxlev`, the first being 1. So a tree that passed validation goes through exactly when it
has fewer than `maxlev` directories one inside the other (`postListToHttpServer_accepted_iff`).
-/

import MipsOnQemu.Home.Refusal
import MipsOnQemu.MyLaunch.Limits
import MipsOnQemu.MyLaunch.Converge

namespace Home

open MyLaunch KeyedForest List Database Nat

variable {τ σ : Type}

/-! ## The server behind the client's posts -/

/-- The two ends: the tables, the answers given so far, and the local stores. -/
structure World (τ σ : Type) where
  db : Database τ
  answers : List Answer := []
  stores : σ

/-- `QString::toUInt` of a printed number: 0 when it does not fit. -/
def toUInt (n : Nat) : UInt32 := if n < 2 ^ 32 then UInt32.ofNat n else 0

/-- The script a post of the client runs. -/
def serve (php : Php τ) (rq : Request) (r : PostRequest) (db : Database τ) : Answer × Database τ :=
  match r.action with
  | .addItem =>
    cpBmdir php rq .add .addsubmit r.parentid.toNat ⟨some .site, r.subject, r.address, [], []⟩ db
  | .addDir =>
    cpBmdir php rq .add .addsubmit r.parentid.toNat ⟨some .dir, r.subject, [], [], []⟩ db
  | .deleteItem => cpBookmark php rq .delete .deletesubmit r.bmid.toNat ⟨none, [], [], [], []⟩ db
  | .deleteDir => cpBmdir php rq .delete .deletesubmit r.bmid.toNat ⟨none, [], [], [], []⟩ db

/-- The `status` element that `showmessage` sends to the client. -/
def status (rq : Request) : Answer → PostReply
  | .posted p => ⟨false, true, rq.supeTimestamp, toUInt p.groupid, toUInt p.bmid⟩
  | .deleted => ⟨false, true, rq.supeTimestamp, 0, 0⟩
  | _ => ⟨false, false, [], 0, 0⟩

/-- The request of the client that comes after `n` others. -/
def clientRequest (uid : Nat) (clock : Nat → Nat × Nat) (browserid : Browser) (n : Nat) : Request where
  uid := uid
  browserid := browserid
  client := true
  timestamp := (clock n).1
  fraction := (clock n).2

/-- The environment of a merge whose posts go to the server. -/
def serverEnv (php : Php τ) (uid : Nat) (clock : Nat → Nat × Nat) (env : Env σ) : Env (World τ σ) where
  post := fun w r =>
    let rq := clientRequest uid clock r.browserid w.answers.length
    let (answer, db) := serve php rq r w.db
    ({ w with db := db, answers := w.answers ++ [answer] }, status rq answer)
  access := fun w r =>
    let (stores, reply) := env.access w.stores r
    ({ w with stores := stores }, reply)
  currentDateTime := env.currentDateTime
  productFFId := env.productFFId
  debugmerge := env.debugmerge
  firefoxVersion := env.firefoxVersion

/-! ## Two counts of depth -/

/-- The word filter lets the name of a directory pass. -/
def namePasses (php : Php τ) (b : Browser) (name : QString) : Bool :=
  (postTexts php (clientRequest 0 (fun _ => (0, 0)) b 0) ⟨some .dir, name, [], [], []⟩).isSome

mutual
/-- The number of directories of a tree, one inside the other, with names that `ok` allows. -/
def dirDepthTree (ok : QString → Bool) : BmTree → Nat
  | .node bc list =>
    if bc.flag = .catagory ∧ ok bc.name = true then dirDepth ok list + 1 else 0

/-- The largest number of directories of a list, one inside the other. -/
def dirDepth (ok : QString → Bool) : BmList → Nat
  | [] => 0
  | t :: list => max (dirDepthTree ok t) (dirDepth ok list)
end

theorem supeTimestamp_ne_nil (rq : Request) : rq.supeTimestamp ≠ [] := by
  intro h
  have hlen := congrArg length h
  rw [Request.supeTimestamp, length_append] at hlen
  have hpos : 0 < (toDigits 10 rq.timestamp).length := length_toDigits_pos
  simp only [length_nil] at hlen
  omega

/-! ## One addition -/

variable {db db' : Database τ} {d k n m n' m' : Nat} {bc : BmEntry} {list : BmList}

section Addition

variable (php : Php τ) (uid : Nat) (b : Browser)

/-- The directory `d` of the account stands at level `k`; 0 is the root. -/
def ParentAt (db : Database τ) (d k : Nat) : Prop :=
  (d = 0 ∧ k = 0) ∨ (d ≠ 0 ∧ ∃ dir, db.bmdir uid b d = some dir ∧ dir.level = k)

variable {uid b}

/-- What an addition under `d` gives `bookmark_post` as `olds`, and the row it would make. -/
theorem olds_of_parentAt (h : ParentAt uid b db d k) {rq : Request} (hrq : rq.uid = uid ∧ rq.browserid = b) :
    ∃ olds, (if d = 0 then none else db.bmdir rq.uid rq.browserid d) = olds ∧
      olds.elim rq.uid (·.uid) = rq.uid ∧ ∀ type subject, (newRow rq olds type subject).parentid = d ∧
        (newRow rq olds type subject).level = k + 1 ∧
        (newRow rq olds type subject).browserid = b := by
  obtain ⟨hu, hb⟩ := hrq
  rcases h with ⟨rfl, rfl⟩ | ⟨hd, dir, hdir, rfl⟩
  · exact ⟨none, rfl, rfl, fun type subject => ⟨rfl, rfl, hb⟩⟩
  · obtain ⟨-, hu', -, hg', hb'⟩ := bmdir_eq_some hdir
    refine ⟨some dir, ?_, hu'.trans hu.symm, fun type subject => ⟨hg', rfl, hb'⟩⟩
    rw [if_neg hd, hu, hb, hdir]

theorem postTexts_isSome {rq rq' : Request} (hb : rq.browserid = rq'.browserid)
    (hc : rq.client = rq'.client) (post : Post) :
    (postTexts php rq post).isSome = (postTexts php rq' post).isSome := by
  -- the texts differ in the date alone, which no test looks at
  simp [postTexts, hb, hc, Option.isSome_bind]

/-- **Adding a directory** under `d`: the word filter, then the level, then the new row. -/
theorem cpBmdir_addDir (h : ParentAt uid b db d k) (rq : Request) (hrq : rq.uid = uid ∧ rq.browserid = b)
    (hclient : rq.client = true) (name : QString) :
    let res := cpBmdir php rq .add .addsubmit d ⟨some .dir, name, [], [], []⟩ db
    (namePasses php b name = false ∧ res = (.refused .shieldingText, db)) ∨
      (namePasses php b name = true ∧ (browser b).maxlev ≤ k + 1 ∧
        res = (.refused .errBmdirAddOverflow, db)) ∨
      (namePasses php b name = true ∧ k + 1 < (browser b).maxlev ∧ ∃ row : BookmarkRow,
        res.1 = .posted ⟨db.getMaxGroupid uid + 1, db.nextBmid⟩ ∧
        res.2.bookmark = db.bookmark ++ [row] ∧ res.2.nextBmid = db.nextBmid + 1 ∧
        row.uid = uid ∧ row.browserid = b ∧ row.type = .dir ∧ row.parentid = d ∧
        row.level = k + 1 ∧ row.groupid = db.getMaxGroupid uid + 1) := by
  obtain ⟨olds, holds, huid, hrow⟩ := olds_of_parentAt h hrq
  obtain ⟨rfl, rfl⟩ := hrq
  intro res
  have hres : res = answerPost (bookmarkPost php .bmdir rq ⟨some .dir, name, [], [], []⟩ olds db) := by
    rw [← holds]
    rfl
  have hpass : namePasses php rq.browserid name = (postTexts php rq ⟨some .dir, name, [], [], []⟩).isSome := by
    have hb : (clientRequest 0 (fun _ => (0, 0)) rq.browserid 0).browserid = rq.browserid := rfl
    have hc : (clientRequest 0 (fun _ => (0, 0)) rq.browserid 0).client = rq.client := hclient.symm
    exact postTexts_isSome php hb hc _
  rw [hres, hpass, bookmarkPost_own huid rfl]
  cases postTexts php rq ⟨some .dir, name, [], [], []⟩ with
  | none => exact .inl ⟨rfl, rfl⟩
  | some texts =>
    obtain ⟨hparent, hlevel, hbrowser⟩ := hrow .dir texts.subject
    refine .inr ?_
    by_cases hfull : (browser rq.browserid).maxlev ≤ k + 1
    · refine .inl ⟨rfl, hfull, ?_⟩
      simp only [postCategory, addBmdir, hlevel, if_pos hfull]
      rfl
    · refine .inr ⟨rfl, by omega, ?_⟩
      simp only [postCategory, addBmdir, hlevel, if_neg hfull]
      exact ⟨_, rfl, rfl, rfl, rfl, hbrowser, rfl, hparent, rfl, rfl⟩

/-- **Adding a bookmark** under a directory that is not full: the word filter, then the new row. -/
theorem cpBmdir_addSite (h : ParentAt uid b db d k) (rq : Request) (hrq : rq.uid = uid ∧ rq.browserid = b)
    (hroom : (db.children uid b d).length < (browser b).maxchild) (name link : QString) :
    let res := cpBmdir php rq .add .addsubmit d ⟨some .site, name, link, [], []⟩ db
    res = (.refused .shieldingText, db) ∨ ∃ row : BookmarkRow, res.1 = .posted ⟨d, db.nextBmid⟩ ∧
      res.2.bookmark = db.bookmark ++ [row] ∧ res.2.nextBmid = db.nextBmid + 1 ∧
      row.uid = uid ∧ row.type = .site ∧ row.parentid = d := by
  obtain ⟨olds, holds, huid, hrow⟩ := olds_of_parentAt h hrq
  obtain ⟨rfl, rfl⟩ := hrq
  intro res
  have hres : res = answerPost (bookmarkPost php .bmdir rq ⟨some .site, name, link, [], []⟩ olds db) := by
    rw [← holds]
    rfl
  rw [hres, bookmarkPost_own huid rfl]
  cases postTexts php rq ⟨some .site, name, link, [], []⟩ with
  | none => exact .inl rfl
  | some texts =>
    obtain ⟨hparent, hlevel, hbrowser⟩ := hrow .site texts.subject
    have hlinks := onlyLinks_acquireLink php texts.address db
    refine .inr ?_
    have hcount : ¬ (browser rq.browserid).maxchild ≤
        ((acquireLink php texts.address db).2.children rq.uid rq.browserid
          (newRow rq olds .site texts.subject).parentid).length := by
      rw [children, hlinks.bookmark, hparent]
      exact Nat.not_le_of_lt hroom
    simp only [postCategory, addBookmark, bookmarkLinkProcess_zero, if_neg hcount]
    refine ⟨{ newRow rq olds .site texts.subject with
      linkid := smallint (acquireLink php texts.address db).1, bmid := db.nextBmid }, ?_,
      hlinks.insertBookmark _, congrArg (· + 1) hlinks.nextBmid, rfl, rfl, hparent⟩
    show Answer.posted ⟨(newRow rq olds .site texts.subject).parentid,
      (acquireLink php texts.address db).2.nextBmid⟩ = _
    rw [hparent, hlinks.nextBmid]

end Addition

/-! ## What a run of additions has done to the table -/

section Growth

variable (uid : Nat) (b : Browser)

/-- The numbers of an account are in order: every `parentid` is below the next `groupid`. -/
structure Tame (db : Database τ) : Prop where
  parentid : ∀ r ∈ db.bookmark, r.uid = uid → r.parentid ≤ db.getMaxGroupid uid
  bmid : 0 < db.nextBmid

/-- From `db` to `db'` rows were added: at most `n` of them in the directory `d`, the others in
directories that are new; at most `m` in all. -/
structure Grown (d n m : Nat) (db db' : Database τ) : Prop where
  rows : ∃ new, db'.bookmark = db.bookmark ++ new ∧
    (∀ r ∈ new, r.parentid = d ∨ db.getMaxGroupid uid < r.parentid) ∧
    (new.filter fun r => r.parentid = d).length ≤ n
  nextBmid : db.nextBmid ≤ db'.nextBmid ∧ db'.nextBmid ≤ db.nextBmid + m
  maxGroupid : db.getMaxGroupid uid ≤ db'.getMaxGroupid uid ∧
    db'.getMaxGroupid uid ≤ db.getMaxGroupid uid + m
  tame : Tame uid db'

variable {uid b}

theorem Grown.refl (h : Tame uid db) : Grown uid d n m db db :=
  ⟨⟨[], (append_nil _).symm, nofun, zero_le _⟩, ⟨le_rfl, le_add_right _ _⟩, ⟨le_rfl, le_add_right _ _⟩, h⟩

/-- Two runs, the second of them in the same directory or in a fresh one, whose rows are not rows of `d`. -/
theorem Grown.trans {g N : Nat} {db'' : Database τ} (h : Grown uid d n m db db') (h' : Grown uid g n' m' db' db'')
    (hg : g = d ∧ N = n + n' ∨ (d ≤ db.getMaxGroupid uid ∧ db.getMaxGroupid uid < g) ∧ N = n) :
    Grown uid d N (m + m') db db'' := by
  obtain ⟨⟨new, hrows, hparent, hcount⟩, hbmid, hmax, -⟩ := h
  obtain ⟨⟨new', hrows', hparent', hcount'⟩, hbmid', hmax', htame⟩ := h'
  have hmore : n + (new'.filter fun r => r.parentid = d).length ≤ N := by
    rcases hg with ⟨rfl, rfl⟩ | ⟨⟨hd, hg⟩, rfl⟩
    · omega
    · have hnone : (new'.filter fun r => r.parentid = d) = [] := by
        refine filter_eq_nil_iff.mpr fun r hr hrd => ?_
        have := hparent' r hr
        have := of_decide_eq_true hrd
        omega
      rw [hnone, length_nil, add_zero]
  refine ⟨⟨new ++ new', ?_, ?_, ?_⟩, by omega, by omega, htame⟩
  · rw [hrows', hrows, append_assoc]
  · refine forall_mem_append.mpr ⟨hparent, fun r hr => ?_⟩
    have := hparent' r hr
    omega
  · rw [filter_append, length_append]
    omega

theorem Grown.parentAt (h : Grown uid d n m db db') {d' : Nat} (hp : ParentAt uid b db d' k) :
    ParentAt uid b db' d' k := by
  obtain ⟨new, hrows, -⟩ := h.rows
  rcases hp with hroot | ⟨hd, dir, hdir, hk⟩
  · exact .inl hroot
  · refine .inr ⟨hd, dir, ?_, hk⟩
    rw [bmdir] at hdir ⊢
    rw [hrows, List.find?_append, hdir]
    rfl

theorem Grown.children (h : Grown uid d n m db db') :
    (db'.children uid b d).length ≤ (db.children uid b d).length + n := by
  obtain ⟨new, hrows, -, hcount⟩ := h.rows
  have hsub : (new.filter fun r => r.uid = uid ∧ r.browserid = b ∧ r.parentid = d).length ≤
      (new.filter fun r => r.parentid = d).length := by
    rw [← countP_eq_length_filter, ← countP_eq_length_filter]
    refine countP_mono_left fun r _ hr => ?_
    exact decide_eq_true (of_decide_eq_true hr).2.2
  rw [Database.children, Database.children, hrows, filter_append, length_append]
  omega

theorem getMaxGroupid_append (uid : Nat) {row : BookmarkRow} (hrows : db'.bookmark = db.bookmark ++ [row]) :
    db'.getMaxGroupid uid = db.getMaxGroupid uid ∨ (row.uid = uid ∧ row.type = .dir ∧
        db'.getMaxGroupid uid ≤ max (db.getMaxGroupid uid) row.groupid ∧
        row.groupid ≤ db'.getMaxGroupid uid) := by
  have hids : db'.groupids uid = db.groupids uid ++
      ([row].filter fun r => r.uid = uid ∧ r.type = .dir).map (·.groupid) := by
    rw [groupids, groupids, hrows, filter_append, map_append]
  by_cases hrow : row.uid = uid ∧ row.type = .dir
  · right
    rw [filter_cons_of_pos (by simpa using hrow), filter_nil] at hids
    have hmax : ∀ l : List Nat, (l ++ [row.groupid]).foldr max 0 = max (l.foldr max 0) row.groupid := by
      intro l
      rw [foldr_append, foldr_cons, foldr_nil, max_comm, foldr_assoc]
    have hne : (db.groupids uid ++ [row.groupid]).isEmpty = false := by
      cases db.groupids uid <;> rfl
    refine ⟨hrow.1, hrow.2, ?_, ?_⟩
    · rw [getMaxGroupid, hids, map_singleton, hne, if_neg (by decide), hmax, getMaxGroupid]
      split
      · next hempty =>
        rw [List.isEmpty_iff.mp hempty]
        simp
      · exact le_rfl
    · rw [getMaxGroupid, hids, map_singleton, hne, if_neg (by decide), hmax]
      exact le_max_right _ _
  · left
    rw [filter_cons_of_neg (by simpa using hrow), filter_nil, map_nil, append_nil] at hids
    rw [getMaxGroupid, getMaxGroupid, hids]

theorem le_getMaxGroupid (h : ParentAt uid b db d k) : d ≤ db.getMaxGroupid uid := by
  rcases h with ⟨rfl, -⟩ | ⟨-, dir, hdir, -⟩
  · exact zero_le _
  · obtain ⟨hmem, hu, ht, hg, -⟩ := bmdir_eq_some hdir
    refine le_getMaxGroupid_of_mem (mem_map.mpr ⟨dir, mem_filter.mpr ⟨hmem, ?_⟩, hg⟩)
    simp [hu, ht]

/-- One new row under `d`. -/
theorem grown_of_row {row : BookmarkRow} (htame : Tame uid db) (hd : d ≤ db.getMaxGroupid uid)
    (hrows : db'.bookmark = db.bookmark ++ [row]) (hnext : db'.nextBmid = db.nextBmid + 1)
    (hparent : row.parentid = d) (htype : row.type = .site ∨ row.groupid = db.getMaxGroupid uid + 1) :
    Grown uid d 1 1 db db' := by
  have hmax : db.getMaxGroupid uid ≤ db'.getMaxGroupid uid ∧
      db'.getMaxGroupid uid ≤ db.getMaxGroupid uid + 1 := by
    rcases getMaxGroupid_append uid hrows with heq | ⟨-, hdir, hle, hge⟩
    · omega
    · rcases htype with hsite | hgroup
      · rw [hsite] at hdir
        cases hdir
      · omega
  refine ⟨⟨[row], hrows, ?_, ?_⟩, by omega, hmax, ⟨?_, by omega⟩⟩
  · exact forall_mem_singleton.mpr (.inl hparent)
  · exact length_filter_le _ _
  · rw [hrows, forall_mem_append, forall_mem_singleton]
    exact ⟨fun r hr hu => (htame.parentid r hr hu).trans hmax.1, fun _ => by omega⟩

end Growth

/-! ## The client's side of a post -/

theorem toUInt_toNat (h : n < 2 ^ 32) : (toUInt n).toNat = n := by
  rw [toUInt, if_pos h]
  exact UInt32.toNat_ofNat_of_lt' h

theorem toUInt_ne_zero (hpos : 0 < n) (h : n < 2 ^ 32) : toUInt n ≠ 0 := by
  intro hzero
  have := toUInt_toNat h
  rw [hzero] at this
  exact absurd this (by simpa using hpos.ne)

/-- No answer so far was a refusal for want of room. -/
def Clean (answers : List Answer) : Prop := ∀ a ∈ answers, ∀ e, a = .refused e → ¬ e.IsOverflow

theorem clean_append_iff {answers : List Answer} {a : Answer} :
    Clean (answers ++ [a]) ↔ Clean answers ∧ ∀ e, a = .refused e → ¬ e.IsOverflow := by
  simp only [Clean, forall_mem_append, forall_mem_singleton]

theorem shieldingText_not_overflow (e : PostError) (h : Answer.refused .shieldingText = .refused e) :
    ¬ e.IsOverflow := by
  cases h
  rintro (h | h) <;> cases h

theorem doPost_world (env : Env σ) (s : BmMerge σ) (r : PostRequest) :
    (s.doPost env r).world = (env.post s.world r).1 := by
  unfold BmMerge.doPost
  cases r.action <;> dsimp only <;> split_ifs <;> rfl

theorem doPost_refused {env : Env σ} (s : BmMerge σ) {r : PostRequest}
    (hadd : r.action = .addItem ∨ r.action = .addDir)
    (h : (env.post s.world r).2.success = false) : (s.doPost env r).postError = true := by
  unfold BmMerge.doPost
  rcases hadd with hadd | hadd <;> simp [hadd, h]

theorem doPost_addedDir {env : Env σ} (s : BmMerge σ) {r : PostRequest} (hadd : r.action = .addDir)
    {t : QString} {g m : UInt32} (h : (env.post s.world r).2 = ⟨false, true, t, g, m⟩)
    (ht : t ≠ []) (hg : g ≠ 0) (hm : m ≠ 0) :
    (s.doPost env r).postError = false ∧ (s.doPost env r).postMaxGroupid = g := by
  unfold BmMerge.doPost
  simp [hadd, h, ht, hg, hm]

/-! ## Posting a tree -/

section Tree

variable (php : Php τ) (uid : Nat) (clock : Nat → Nat × Nat) (env : Env σ) (b : Browser)

/-- The account can take `n` entries in the directory `d` at level `k`, and `m` in all. -/
structure Ready (d k n m : Nat) (db : Database τ) : Prop where
  tame : Tame uid db
  parent : ParentAt uid b db d k
  level : k < (browser b).maxlev
  room : (db.children uid b d).length + n ≤ (browser b).maxchild
  bmid : db.nextBmid + m ≤ 2 ^ 32
  groupid : db.getMaxGroupid uid + m < 2 ^ 32

def PostsTree (t : BmTree) : Prop :=
  ∀ (d : UInt32) (k : Nat) (s : BmMerge (World τ σ)), Ready uid b d.toNat k 1 (countTree t) s.world.db →
    let s' := (postItemToHttpServer (serverEnv php uid clock env) b .add t d s).2
    Grown uid d.toNat 1 (countTree t) s.world.db s'.world.db ∧
      (Clean s'.world.answers ↔ Clean s.world.answers ∧
        k + dirDepthTree (namePasses php b) t < (browser b).maxlev)

def PostsList (l : BmList) : Prop :=
  ∀ (d : UInt32) (k : Nat) (s : BmMerge (World τ σ)),
    Ready uid b d.toNat k l.length (countEntries l) s.world.db →
    let s' := (postListToHttpServer (serverEnv php uid clock env) b .add l d s).2
    Grown uid d.toNat l.length (countEntries l) s.world.db s'.world.db ∧
      (Clean s'.world.answers ↔ Clean s.world.answers ∧
        k + dirDepth (namePasses php b) l < (browser b).maxlev)

variable {uid b}

theorem Ready.rest (h : Ready uid b d k (n + n') (m + m') db) (hg : Grown uid d n m db db') :
    Ready uid b d k n' m' db' := by
  have hchildren := hg.children (b := b)
  have hbmid := hg.nextBmid
  have hmax := hg.maxGroupid
  have := h.room
  have := h.bmid
  have := h.groupid
  exact ⟨hg.tame, hg.parentAt h.parent, h.level, by omega, by omega, by omega⟩

theorem Ready.mono (h : Ready uid b d k n m db) (hn : n' ≤ n) (hm : m' ≤ m) : Ready uid b d k n' m' db := by
  have := h.room
  have := h.bmid
  have := h.groupid
  exact ⟨h.tame, h.parent, h.level, by omega, by omega, by omega⟩

variable {php clock env}

theorem postItem_world (hflag : bc.flag = .item) (env : Env σ) (d : UInt32) (s : BmMerge σ) :
    (postItemToHttpServer env b .add (.node bc list) d s).2.world =
      (env.post s.world ⟨.addItem, d, b, bc.bmid, bc.link, bc.name⟩).1 := by
  rw [← doPost_world]
  simp only [postItemToHttpServer, hflag]
  split <;> rfl

theorem postsTree_item (hflag : bc.flag = .item) : PostsTree php uid clock env b (.node bc list) := by
  intro d k s hready
  have hroom : (s.world.db.children uid b d.toNat).length < (browser b).maxchild := by
    have := hready.room
    omega
  have hadd := cpBmdir_addSite php hready.parent
    (clientRequest uid clock b s.world.answers.length) ⟨rfl, rfl⟩ hroom bc.name bc.link
  have hdepth : dirDepthTree (namePasses php b) (.node bc list) = 0 := by
    simp [dirDepthTree, hflag]
  dsimp only
  rw [postItem_world hflag, hdepth]
  simp only [serverEnv, serve, clean_append_iff]
  rcases hadd with hres | ⟨row, hanswer, hrows, hnext, -, htype, hparent⟩
  · rw [hres]
    refine ⟨Grown.refl hready.tame, ?_⟩
    exact and_congr_right fun _ => iff_of_true shieldingText_not_overflow hready.level
  · refine ⟨?_, ?_⟩
    · have hgrown := grown_of_row hready.tame (le_getMaxGroupid hready.parent) hrows hnext hparent
        (.inl htype)
      exact ⟨hgrown.rows, by have := hgrown.nextBmid; simp only [countTree]; omega,
        by have := hgrown.maxGroupid; simp only [countTree]; omega, hgrown.tame⟩
    · refine and_congr_right fun _ => iff_of_true ?_ hready.level
      intro e he
      rw [hanswer] at he
      cases he

/-- The directory just added is where its children go: it is found by its number, at the next
level, and holds nothing yet. -/
theorem Ready.inside {row : BookmarkRow} (h : Ready uid b d k 1 (m + 1) db) (hlevel : k + 1 < (browser b).maxlev)
    (hrows : db'.bookmark = db.bookmark ++ [row]) (hgrown : Grown uid d 1 1 db db')
    (hrow : row.uid = uid ∧ row.browserid = b ∧ row.type = .dir ∧ row.parentid = d ∧
      row.level = k + 1 ∧ row.groupid = db.getMaxGroupid uid + 1)
    (hn : n ≤ (browser b).maxchild) :
    Ready uid b (db.getMaxGroupid uid + 1) (k + 1) n m db' := by
  obtain ⟨hu, hb, ht, hp, hl, hg⟩ := hrow
  have hd := le_getMaxGroupid h.parent
  refine ⟨hgrown.tame, .inr ⟨succ_ne_zero _, row, ?_, hl⟩, hlevel, ?_, ?_, ?_⟩
  · -- no older directory has the number
    have hold : db.bmdir uid b (db.getMaxGroupid uid + 1) = none := by
      cases hfound : db.bmdir uid b (db.getMaxGroupid uid + 1) with
      | none => rfl
      | some dir =>
        have := le_getMaxGroupid (.inr ⟨succ_ne_zero _, dir, hfound, rfl⟩)
        omega
    rw [bmdir] at hold ⊢
    rw [hrows, List.find?_append, hold, List.find?_cons_of_pos (by simp [hu, hb, ht, hg])]
    rfl
  · have hempty : db'.children uid b (db.getMaxGroupid uid + 1) = [] := by
      rw [children, hrows, filter_eq_nil_iff]
      intro r hr hrg
      obtain ⟨hru, -, hrp⟩ := of_decide_eq_true hrg
      rcases mem_append.mp hr with hr | hr
      · have := h.tame.parentid r hr hru
        omega
      · rw [mem_singleton.mp hr, hp] at hrp
        omega
    rw [hempty, length_nil]
    omega
  · have := h.bmid
    have := hgrown.nextBmid
    omega
  · have := h.groupid
    have := hgrown.maxGroupid
    omega

theorem postDir_refused (hflag : bc.flag = .catagory) {env : Env σ} {d : UInt32} {s : BmMerge σ}
    (h : (env.post s.world ⟨.addDir, d, b, 0, [], bc.name⟩).2.success = false) :
    (postItemToHttpServer env b .add (.node bc list) d s).2.world =
      (env.post s.world ⟨.addDir, d, b, 0, [], bc.name⟩).1 := by
  have herror := doPost_refused s (.inr rfl) h
  rw [← doPost_world]
  simp only [postItemToHttpServer, hflag, herror, if_true]
  rfl

theorem postDir_added (hflag : bc.flag = .catagory) {env : Env σ} {d : UInt32} {s : BmMerge σ} {t : QString}
    {g m : UInt32} (h : (env.post s.world ⟨.addDir, d, b, 0, [], bc.name⟩).2 = ⟨false, true, t, g, m⟩)
    (ht : t ≠ []) (hg : g ≠ 0) (hm : m ≠ 0) : (postItemToHttpServer env b .add (.node bc list) d s).2 =
      (postListToHttpServer env b .add list g
        (s.doPost env ⟨.addDir, d, b, 0, [], bc.name⟩)).2 := by
  obtain ⟨herror, hgroup⟩ := doPost_addedDir s rfl h ht hg hm
  simp [postItemToHttpServer, hflag, herror, hgroup, hg]

/-- **A directory is posted in full exactly when it and the directories below it lie above
`maxlev`.** -/
theorem postsTree_dir (hflag : bc.flag = .catagory) (hwidth : list.length ≤ (browser b).maxchild)
    (hlist : PostsList php uid clock env b list) : PostsTree php uid clock env b (.node bc list) := by
  intro d k s hready
  rw [countTree] at hready
  dsimp only
  have hadd := cpBmdir_addDir php hready.parent
    (clientRequest uid clock b s.world.answers.length) ⟨rfl, rfl⟩ rfl bc.name
  generalize hserve : cpBmdir php (clientRequest uid clock b s.world.answers.length) .add .addsubmit
    d.toNat ⟨some .dir, bc.name, [], [], []⟩ s.world.db = res at hadd
  have hpost : (serverEnv php uid clock env).post s.world ⟨.addDir, d, b, 0, [], bc.name⟩ =
      ({ s.world with db := res.2, answers := s.world.answers ++ [res.1] },
        status (clientRequest uid clock b s.world.answers.length) res.1) := by
    rw [← hserve]
    rfl
  have hdepth : namePasses php b bc.name = true → dirDepthTree (namePasses php b) (.node bc list) =
      dirDepth (namePasses php b) list + 1 := fun hname => by simp [dirDepthTree, hflag, hname]
  rcases hadd with ⟨hname, hres⟩ | ⟨hname, hfull, hres⟩ | ⟨hname, hlevel, row, hanswer, hrows, hnext, hrow⟩
  · rw [hres] at hpost
    rw [postDir_refused hflag (by rw [hpost]; rfl), hpost]
    refine ⟨Grown.refl hready.tame, ?_⟩
    have hzero : dirDepthTree (namePasses php b) (.node bc list) = 0 := by
      simp [dirDepthTree, hname]
    rw [hzero, clean_append_iff]
    exact and_congr_right fun _ => iff_of_true shieldingText_not_overflow hready.level
  · rw [hres] at hpost
    rw [postDir_refused hflag (by rw [hpost]; rfl), hpost]
    refine ⟨Grown.refl hready.tame, ?_⟩
    rw [hdepth hname, clean_append_iff]
    refine and_congr_right fun _ => iff_of_false ?_ (by omega)
    intro h
    exact h _ rfl (.inr rfl)
  · have hgrown := grown_of_row hready.tame (le_getMaxGroupid hready.parent) hrows hnext
      hrow.2.2.2.1 (.inr hrow.2.2.2.2.2)
    have hg : s.world.db.getMaxGroupid uid + 1 < 2 ^ 32 := by
      have := hready.groupid
      omega
    have hm : s.world.db.nextBmid < 2 ^ 32 := by
      have := hready.bmid
      omega
    rw [hanswer] at hpost
    rw [postDir_added hflag (congrArg Prod.snd hpost) (supeTimestamp_ne_nil _)
      (toUInt_ne_zero (succ_pos _) hg) (toUInt_ne_zero hready.tame.bmid hm)]
    have hworld := doPost_world (serverEnv php uid clock env) s
      ⟨.addDir, d, b, 0, [], bc.name⟩
    rw [hpost] at hworld
    have hinside := hready.inside hlevel hrows hgrown hrow hwidth
    have hspec := hlist (toUInt (s.world.db.getMaxGroupid uid + 1)) (k + 1)
      (s.doPost (serverEnv php uid clock env) ⟨.addDir, d, b, 0, [], bc.name⟩)
    rw [toUInt_toNat hg, hworld] at hspec
    obtain ⟨hgrown', hclean⟩ := hspec hinside
    refine ⟨?_, ?_⟩
    · rw [countTree, add_comm]
      exact hgrown.trans hgrown' (.inr ⟨⟨le_getMaxGroupid hready.parent, lt_succ_self _⟩, rfl⟩)
    · rw [hclean, hdepth hname, clean_append_iff, add_right_comm, add_assoc]
      exact and_congr_left' (and_iff_left fun e he => by cases he)

theorem postsList_nil : PostsList php uid clock env b [] := by
  intro d k s hready
  refine ⟨Grown.refl hready.tame, ?_⟩
  have := hready.level
  simp only [postListToHttpServer, dirDepth, add_zero]
  exact ⟨fun h => ⟨h, hready.level⟩, fun h => h.1⟩

theorem postsList_cons {t : BmTree} {l : BmList} (ht : PostsTree php uid clock env b t)
    (hl : PostsList php uid clock env b l) : PostsList php uid clock env b (t :: l) := by
  intro d k s hready
  have hsplit : Ready uid b d.toNat k (1 + l.length) (countTree t + countEntries l) s.world.db :=
    hready.mono (by rw [length_cons]; omega) (by rw [countEntries])
  obtain ⟨hgrown, hclean⟩ := ht d k s (hsplit.mono (by omega) (by omega))
  obtain ⟨hgrown', hclean'⟩ := hl d k _ (hsplit.rest hgrown)
  have hlen : (t :: l).length = 1 + l.length := by rw [length_cons]; omega
  rw [hlen, countEntries]
  refine ⟨hgrown.trans hgrown' (.inl ⟨rfl, rfl⟩), (hclean'.trans (and_congr_left' hclean)).trans ?_⟩
  rw [dirDepth, and_assoc]
  refine and_congr_right fun _ => ?_
  omega

theorem postsList (l : BmList) (hwidth : Everywhere (fun _ list => list.length ≤ (browser b).maxchild) l) :
    PostsList php uid clock env b l := by
  induction l using forest_induction with
  | nil => exact postsList_nil
  | cons bc list rest ihlist ihrest =>
    obtain ⟨⟨hlen, hbelow⟩, hrest⟩ := hwidth
    refine postsList_cons ?_ (ihrest hrest)
    cases hflag : bc.flag with
    | catagory => exact postsTree_dir hflag hlen (ihlist hbelow)
    | item => exact postsTree_item hflag

theorem browser_maxchild (b : Browser) : (browser b).maxchild = (browserInfo b).maxchild := by
  cases b <;> rfl

/-- **A tree that the client has found valid goes into an empty account without a refusal for
want of room exactly when it has fewer than `maxlev` directories one inside the other** (those
whose names the word filter stops, with all they hold, apart). -/
theorem postListToHttpServer_accepted_iff (php : Php τ) (uid : Nat) (clock : Nat → Nat × Nat)
    (env : Env σ) (b : Browser) (debug : Bool) (l : BmList) (s : BmMerge (World τ σ))
    (hvalid : Accepted debug (browserInfo b) l)
    (hempty : ∀ r ∈ s.world.db.bookmark, r.uid ≠ uid) (hanswers : s.world.answers = [])
    (hids : 0 < s.world.db.nextBmid ∧ s.world.db.nextBmid + countEntries l ≤ 2 ^ 32) :
    Clean (postListToHttpServer (serverEnv php uid clock env) b .add l 0 s).2.world.answers ↔
      dirDepth (namePasses php b) l < (browser b).maxlev := by
  obtain ⟨hcount, ⟨hlen, hwidth⟩, -⟩ := hvalid.within
  rw [← browser_maxchild] at hlen hwidth
  have hgroupids : s.world.db.groupids uid = [] := by
    rw [groupids, map_eq_nil_iff, filter_eq_nil_iff]
    intro r hr hru
    exact hempty r hr (of_decide_eq_true hru).1
  have hmax : s.world.db.getMaxGroupid uid = 7999 := by
    rw [getMaxGroupid, hgroupids]
    rfl
  have hchildren : s.world.db.children uid b 0 = [] := by
    rw [children, filter_eq_nil_iff]
    intro r hr hru
    exact hempty r hr (of_decide_eq_true hru).1
  have hsmall : countEntries l ≤ 640 := by
    have hmaxchild : (browser b).maxchild = 128 := by cases b <;> rfl
    have hle : (if debug then l.length else 0) ≤ 128 := by
      split <;> omega
    have htotal : browserBmMaxTotalCount = 512 := rfl
    omega
  have hready : Ready uid b (0 : UInt32).toNat 0 l.length (countEntries l) s.world.db := by
    refine ⟨⟨fun r hr hru => absurd hru (hempty r hr), hids.1⟩, .inl ⟨rfl, rfl⟩, ?_, ?_, hids.2, ?_⟩
    · cases b <;> decide
    · show (s.world.db.children uid b 0).length + l.length ≤ _
      rw [hchildren, length_nil]
      omega
    · omega
  have hlist : PostsList php uid clock env b l := postsList l hwidth
  rw [(hlist 0 0 s hready).2, hanswers, zero_add]
  exact and_iff_right (forall_mem_nil _)

end Tree

/-- The client before its first post, and a server that holds nothing. -/
def emptyServer : BmMerge (World Unit Nat) := { world := { db := { tags := () }, stores := 0 } }

/-- A bookmark inside `n` directories. -/
def nested : Nat → BmList
  | 0 => [bookmark ['x'] "http://a".toList 0]
  | n + 1 => [directory ['d'] 0 (nested n)]

/-- Four directories one inside the other are taken. -/
theorem postListToHttpServer_accepted_sample : Accepted false (browserInfo .ie) (nested 4) ∧
      Clean (postListToHttpServer (serverEnv plainPhp 1 (fun n => (n, n)) Env.succeeding) .ie .add
        (nested 4) 0 emptyServer).2.world.answers := by
  have hvalid : Accepted false (browserInfo .ie) (nested 4) := ⟨5, rfl⟩
  refine ⟨hvalid, ?_⟩
  refine (postListToHttpServer_accepted_iff plainPhp 1 _ _ .ie false (nested 4) emptyServer hvalid
    ?_ rfl (by decide)).mpr (by decide +kernel)
  intro r hr
  cases hr

/-- Five pass the client's check, and the server refuses the last. -/
theorem postListToHttpServer_refused_sample : Accepted false (browserInfo .ie) (nested 5) ∧
      ¬ Clean (postListToHttpServer (serverEnv plainPhp 1 (fun n => (n, n)) Env.succeeding) .ie .add
        (nested 5) 0 emptyServer).2.world.answers := by
  refine ⟨⟨6, rfl⟩, fun h => ?_⟩
  exact h (.refused .errBmdirAddOverflow) (by decide +kernel) _ rfl (.inr rfl)

end Home
