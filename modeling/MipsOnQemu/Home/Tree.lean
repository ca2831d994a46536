/-
# MipsOnQemu.Home.Tree -- the bookmark tree of one user in the flat table

The rows of a user form a tree: the `groupid`s of the directories are distinct and start at 8000,
a `parentid` is 0 or the `groupid` of a directory of the same browser, a level is one more than
that of the parent, and `space` holds the numbers of bookmarks and directories. Every request of
the user keeps this as long as it names what it means (`Action.Names`): an addition names the root
or a directory that is there, and an edit through `cp_bookmark.php` a bookmark. The columns are
`smallint`s; an addition has to find room in them (`Room`).

An addition that names a directory since deleted is not refused: `cp_bmdir.php` finds no row, and
`bookmark_post` takes no row for the root (`execute_lost_parent`).
-/

import MipsOnQemu.Home.Keys
import MipsOnQemu.Home.Refusal

namespace Home

open List Database Space
open MyLaunch (QString Browser)

variable {τ : Type}

/-! ## The tree -/

/-- A row hangs under the directory `d`. -/
def HangsUnder (d r : BookmarkRow) : Prop :=
  d.uid = r.uid ∧ d.type = .dir ∧ d.browserid = r.browserid ∧ d.groupid = r.parentid ∧
    r.level = d.level + 1

/-- **The rows of a user form a tree**, and `space` counts them. -/
structure TreeShape (uid : Nat) (db : Database τ) : Prop where
  groupids : (db.groupids uid).Nodup
  groupidPos : ∀ g ∈ db.groupids uid, 8000 ≤ g
  parents : ∀ r ∈ db.bookmark, r.uid = uid →
    (r.parentid = 0 ∧ r.level = 1) ∨ ∃ d ∈ db.bookmark, HangsUnder d r
  linknum : (db.space uid).linknum = db.bookmark.countP fun r => r.uid = uid ∧ r.type = .site
  bmdirnum : (db.space uid).bmdirnum = db.bookmark.countP fun r => r.uid = uid ∧ r.type = .dir

/-- The counter of `space` for a type of rows. -/
def Space.num (space : Space) : BookmarkType → Int
  | .site => space.linknum
  | .dir => space.bmdirnum

/-- No link has the number 0, which stands for no link. -/
def LinksPos (db : Database τ) : Prop := 0 < db.nextLinkid ∧ ∀ l ∈ db.link, 0 < l.linkid

/-- The tree, with what keeps the deletions exact: keys, and directories without a link. -/
structure TreeInv (uid : Nat) (db : Database τ) : Prop extends TreeShape uid db where
  keyed : Keyed db
  dirLink : ∀ r ∈ db.bookmark, r.type = .dir → r.linkid = 0
  linksPos : LinksPos db

variable {db : Database τ} {uid : Nat}

theorem mem_groupids {g : Nat} :
    g ∈ db.groupids uid ↔ ∃ d ∈ db.bookmark, d.uid = uid ∧ d.type = .dir ∧ d.groupid = g := by
  simp only [groupids, mem_map, mem_filter, decide_eq_true_eq, and_assoc]

theorem TreeShape.getMaxGroupid (h : TreeShape uid db) :
    8000 ≤ db.getMaxGroupid uid + 1 ∧ ∀ g ∈ db.groupids uid, g < db.getMaxGroupid uid + 1 := by
  refine ⟨?_, fun g hg => Nat.lt_succ_of_le (le_getMaxGroupid_of_mem hg)⟩
  cases hids : db.groupids uid with
  | nil => rw [Database.getMaxGroupid, hids, isEmpty_nil, if_pos rfl]
  | cons g ids =>
    have hg : g ∈ db.groupids uid := hids ▸ mem_cons_self
    exact ((h.groupidPos g hg).trans (le_getMaxGroupid_of_mem hg)).trans (Nat.le_succ _)

theorem TreeShape.num (h : TreeShape uid db) (t : BookmarkType) :
    (db.space uid).num t = db.bookmark.countP fun r => r.uid = uid ∧ r.type = t := by
  cases t with
  | site => exact h.linknum
  | dir => exact h.bmdirnum

theorem TreeInv.dir_eq (h : TreeInv uid db) {d d' : BookmarkRow}
    (hd : d ∈ db.bookmark) (hd' : d' ∈ db.bookmark) (hu : d.uid = uid ∧ d.type = .dir)
    (hu' : d'.uid = uid ∧ d'.type = .dir) (hg : d.groupid = d'.groupid) : d = d' :=
  inj_on_of_nodup_map h.groupids (mem_filter.mpr ⟨hd, decide_eq_true hu⟩)
    (mem_filter.mpr ⟨hd', decide_eq_true hu'⟩) hg

theorem TreeInv.ranked (h : TreeInv uid db) : Ranked uid db.bookmark := by
  intro dir hdir r hr htype hu hru _ hp
  rcases h.parents r hr hru with ⟨hzero, -⟩ | ⟨d, hd, hdu, hdt, -, hdg, hlevel⟩
  · -- 0 is not the number of a directory
    have := h.groupidPos dir.groupid (mem_groupids.mpr ⟨dir, hdir, hu, htype, rfl⟩)
    omega
  · have := h.dir_eq hdir hd ⟨hu, htype⟩ ⟨hdu.trans hru, hdt⟩ (hp.symm.trans hdg.symm)
    rw [hlevel, this]
    exact Nat.lt_succ_self _

theorem TreeInv.level_pos (h : TreeInv uid db) {r : BookmarkRow}
    (hr : r ∈ db.bookmark) (hu : r.uid = uid) : 0 < r.level := by
  rcases h.parents r hr hu with ⟨-, hl⟩ | ⟨d, -, -, -, -, -, hl⟩
  · omega
  · omega

/-! ## Links -/

namespace LinksPos

variable {db : Database τ}

section

variable (h : LinksPos db)
include h

theorem map {db' : Database τ} {f : LinkRow → LinkRow}
    (hf : ∀ l, (f l).linkid = l.linkid) (hlink : db'.link = db.link.map f)
    (hnext : db'.nextLinkid = db.nextLinkid) : LinksPos db' := by
  refine ⟨hnext ▸ h.1, ?_⟩
  rw [hlink, forall_mem_map]
  intro x hx
  rw [hf]
  exact h.2 x hx

theorem addStorenum (i : Nat) (n : Int) : LinksPos (db.addStorenum i n) :=
  h.map (fun l => by split <;> rfl) rfl rfl

theorem updatesitestorenum (i : Nat) (n : Int) : LinksPos (db.updatesitestorenum i n) := h

theorem insertLink (row : LinkRow) : LinksPos (db.insertLink row) :=
  ⟨Nat.succ_pos _, forall_mem_append.mpr ⟨h.2, forall_mem_singleton.mpr h.1⟩⟩

theorem linkOf_zero : db.linkOf 0 = none := linkOf_eq_none fun l hl => (h.2 l hl).ne'

end

theorem linkKept : LinkKept fun db : Database τ => LinksPos db :=
  ⟨fun i n h => h.updatesitestorenum i n, fun i n h => h.addStorenum i n, fun row h => h.insertLink row⟩

end LinksPos

/-! ## What the requests do to the tree -/

variable {olds : Option BookmarkRow} {texts : PostTexts} {post : Post}

namespace TreeInv

variable {uid : Nat} {db db' : Database τ}

/-- **A row is taken out** that no other row hangs under. -/
theorem remove (h : TreeInv uid db) {x : BookmarkRow} (hx : x ∈ db.bookmark) (hu : x.uid = uid)
    (hleaf : ∀ r ∈ db.bookmark, r.uid = uid → ¬ HangsUnder x r)
    (hrows : db'.bookmark = db.bookmark.filter fun r => r.bmid ≠ x.bmid)
    (hnext : db'.nextBmid = db.nextBmid) (hlinks : LinksPos db')
    (hnum : ∀ t, (db'.space uid).num t = (db.space uid).num t - if x.type = t then 1 else 0) :
    TreeInv uid db' := by
  have hsub : db'.bookmark.Sublist db.bookmark := by
    rw [hrows]
    exact filter_sublist
  have hgroups : (db'.groupids uid).Sublist (db.groupids uid) := (hsub.filter _).map _
  have hperm := h.keyed.perm_cons_filter hx
  rw [← hrows] at hperm
  have hcount : ∀ t, (db'.space uid).num t = db'.bookmark.countP fun r => r.uid = uid ∧ r.type = t := by
    intro t
    rw [hnum, h.num, hperm.countP_eq, countP_cons]
    by_cases ht : x.type = t
    · simp [hu, ht]
    · simp [ht]
  refine ⟨⟨h.groupids.sublist hgroups, fun g hg => h.groupidPos g (hgroups.subset hg), ?_,
    hcount .site, hcount .dir⟩, h.keyed.of_sublist hsub hnext, fun r hr => h.dirLink r (hsub.subset hr), hlinks⟩
  · intro r hr hru
    rcases h.parents r (hsub.subset hr) hru with hroot | ⟨d, hd, hunder⟩
    · exact .inl hroot
    · -- the parent is another row than the one that goes
      refine .inr ⟨d, ?_, hunder⟩
      rw [hrows]
      refine mem_filter.mpr ⟨hd, decide_eq_true fun heq => ?_⟩
      rw [h.keyed.eq_of_bmid hd hx heq] at hunder
      exact hleaf r (hsub.subset hr) hru hunder

/-- **A row of the user is put in**, at the root or under a directory that is there. -/
theorem insert (h : TreeInv uid db) (row : BookmarkRow) (hu : row.uid = uid)
    (hparent : (row.parentid = 0 ∧ row.level = 1) ∨ ∃ d ∈ db.bookmark, HangsUnder d row)
    (hdir : row.type = .dir → row.linkid = 0 ∧ row.groupid = db.getMaxGroupid uid + 1)
    (hrows : db'.bookmark = db.bookmark ++ [{ row with bmid := db.nextBmid }])
    (hnext : db'.nextBmid = db.nextBmid + 1) (hlinks : LinksPos db')
    (hnum : ∀ t, (db'.space uid).num t = (db.space uid).num t + if row.type = t then 1 else 0) :
    TreeInv uid db' := by
  have hcount : ∀ t, (db'.space uid).num t = db'.bookmark.countP fun r => r.uid = uid ∧ r.type = t := by
    intro t
    rw [hnum, h.num, hrows, countP_append, countP_singleton]
    by_cases ht : row.type = t
    · simp [hu, ht]
    · simp [ht]
  have hgroups : db'.groupids uid = db.groupids uid ++
      if row.type = .dir then [row.groupid] else [] := by
    rw [groupids, hrows, filter_append, map_append, groupids]
    by_cases ht : row.type = .dir
    · simp [hu, ht]
    · simp [ht]
  obtain ⟨hmin, hmax⟩ := h.getMaxGroupid
  refine ⟨⟨?_, ?_, ?_, hcount .site, hcount .dir⟩, h.keyed.insert hrows hnext, ?_, hlinks⟩
  · rw [hgroups]
    split
    · next ht =>
      rw [nodup_append]
      refine ⟨h.groupids, nodup_singleton _, ?_⟩
      rintro g hg g' hg' rfl
      have := hmax g hg
      rw [mem_singleton, (hdir ht).2] at hg'
      omega
    · rw [append_nil]
      exact h.groupids
  · rw [hgroups]
    refine forall_mem_append.mpr ⟨h.groupidPos, ?_⟩
    split
    · next ht => exact forall_mem_singleton.mpr ((hdir ht).2 ▸ hmin)
    · exact nofun
  · have hold : ∀ {r : BookmarkRow}, (∃ d ∈ db.bookmark, HangsUnder d r) →
        ∃ d ∈ db.bookmark ++ [{ row with bmid := db.nextBmid }], HangsUnder d r :=
      fun ⟨d, hd, hunder⟩ => ⟨d, mem_append_left _ hd, hunder⟩
    rw [hrows]
    exact forall_mem_append.mpr ⟨fun r hr hru => (h.parents r hr hru).imp_right hold,
      forall_mem_singleton.mpr fun _ => hparent.imp_right hold⟩
  · rw [hrows]
    exact forall_mem_append.mpr ⟨h.dirLink, forall_mem_singleton.mpr fun ht => (hdir ht).1⟩

/-- **Rows change in place**: in no column that the tree is made of. -/
theorem update (h : TreeInv uid db) {f : BookmarkRow → BookmarkRow} (hkey : ∀ r, (f r).bmid = r.bmid)
    (hf : ∀ r ∈ db.bookmark, (f r).uid = r.uid ∧ (f r).type = r.type ∧
      (f r).groupid = r.groupid ∧ (f r).parentid = r.parentid ∧ (f r).level = r.level ∧
      (f r).browserid = r.browserid ∧ (r.type = .dir → (f r).linkid = r.linkid))
    (hrows : db'.bookmark = db.bookmark.map f) (hnext : db'.nextBmid = db.nextBmid)
    (hlinks : LinksPos db') (hnum : ∀ t, (db'.space uid).num t = (db.space uid).num t) :
    TreeInv uid db' := by
  have hcount : ∀ t, (db'.space uid).num t = db'.bookmark.countP fun r => r.uid = uid ∧ r.type = t := by
    intro t
    rw [hnum, h.num, hrows, countP_map]
    refine congrArg _ (countP_congr fun r hr => ?_)
    obtain ⟨hu, ht, -⟩ := hf r hr
    simp [hu, ht]
  have hgroups : db'.groupids uid = db.groupids uid := by
    have hfilter : ((db.bookmark.map f).filter fun r => r.uid = uid ∧ r.type = .dir) =
        (db.bookmark.filter fun r => r.uid = uid ∧ r.type = .dir).map f := by
      rw [filter_map]
      refine congrArg _ (filter_congr fun r hr => ?_)
      obtain ⟨hu, ht, -⟩ := hf r hr
      simp [hu, ht]
    rw [groupids, hrows, hfilter, map_map, groupids]
    refine map_congr_left fun r hr => ?_
    exact (hf r (mem_filter.mp hr).1).2.2.1
  have hunder : ∀ d ∈ db.bookmark, ∀ r ∈ db.bookmark, HangsUnder d r → HangsUnder (f d) (f r) := by
    intro d hd r hr hdr
    obtain ⟨hdu, hdt, hdg, -, hdl, hdb, -⟩ := hf d hd
    obtain ⟨hru, -, -, hrp, hrl, hrb, -⟩ := hf r hr
    rw [HangsUnder, hdu, hdt, hdg, hdl, hdb, hru, hrp, hrl, hrb]
    exact hdr
  refine ⟨⟨hgroups ▸ h.groupids, hgroups ▸ h.groupidPos, ?_, hcount .site, hcount .dir⟩,
    h.keyed.update hkey hrows hnext, ?_, hlinks⟩
  · rw [hrows, forall_mem_map]
    intro x hx hru
    obtain ⟨hxu, -, -, hxp, hxl, -⟩ := hf x hx
    rw [hxp, hxl]
    refine (h.parents x hx (hxu.symm.trans hru)).imp_right ?_
    rintro ⟨d, hd, hdx⟩
    exact ⟨f d, mem_map_of_mem hd, hunder d hd x hx hdx⟩
  · rw [hrows, forall_mem_map]
    intro x hx ht
    obtain ⟨-, hxt, -, -, -, -, hlink⟩ := hf x hx
    rw [hlink (hxt ▸ ht)]
    exact h.dirLink x hx (hxt ▸ ht)

theorem onlyLinks (h : TreeInv uid db) (hsame : OnlyLinks db db') (hlinks : LinksPos db') :
    TreeInv uid db' := by
  refine h.update (f := id) (fun _ => rfl) (fun _ _ => ⟨rfl, rfl, rfl, rfl, rfl, rfl, fun _ => rfl⟩)
    ?_ hsame.nextBmid hlinks fun _ => by rw [hsame.space]
  rw [map_id, hsame.bookmark]

section Requests

variable {php : Php τ} {rq : Request}

/-- The place `cp_bmdir.php` adds under: the root, or a directory of the user and browser. -/
def Place (db : Database τ) (rq : Request) (olds : Option BookmarkRow) : Prop :=
  ∀ d, olds = some d → d ∈ db.bookmark ∧ d.uid = rq.uid ∧ d.type = .dir

theorem newRow_parent (hplace : Place db rq olds) (type : BookmarkType) (subject : QString) :
    ((newRow rq olds type subject).parentid = 0 ∧ (newRow rq olds type subject).level = 1) ∨
      ∃ d ∈ db.bookmark, HangsUnder d (newRow rq olds type subject) := by
  cases olds with
  | none => exact .inl ⟨rfl, rfl⟩
  | some d =>
    obtain ⟨hd, hu, ht⟩ := hplace d rfl
    exact .inr ⟨d, hd, hu, ht, rfl, rfl, rfl⟩

theorem addBookmark (h : TreeInv rq.uid db) (hplace : Place db rq olds) :
    TreeInv rq.uid (addBookmark php rq texts olds db).2 := by
  have hlinks := onlyLinks_acquireLink php texts.address db
  have hpos := LinksPos.linkKept.acquireLink h.linksPos php texts.address
  have hparent := newRow_parent hplace .site texts.subject
  simp only [Home.addBookmark, bookmarkLinkProcess_zero]
  split
  · exact h.onlyLinks hlinks hpos
  · refine h.insert { newRow rq olds .site texts.subject with
      linkid := smallint (acquireLink php texts.address db).1 } rfl hparent (by simp [newRow])
      (hlinks.insertBookmark _) (congrArg (· + 1) hlinks.nextBmid) hpos ?_
    rintro (_ | _) <;>
      simp [num, setLinknum, setbookmarkmodified, hlinks.space, newRow]

theorem addBmdir (h : TreeInv rq.uid db) (hplace : Place db rq olds) :
    TreeInv rq.uid (addBmdir rq texts olds db).2 := by
  have hparent := newRow_parent hplace .dir texts.subject
  simp only [Home.addBmdir]
  split
  · exact h
  · refine h.insert { newRow rq olds .dir texts.subject with
      groupid := db.getMaxGroupid rq.uid + 1 } rfl hparent (fun _ => ⟨rfl, rfl⟩) rfl rfl
      h.linksPos ?_
    rintro (_ | _) <;> simp [num, setBmdirnum, setbookmarkmodified, newRow]

theorem editBmdir (h : TreeInv uid db) (holds : ∀ r, olds = some r → r ∈ db.bookmark) :
    TreeInv uid (editBmdir php rq post olds db).2 := by
  simp only [Home.editBmdir]
  split
  · exact h
  · split
    · exact h
    · next item =>
      refine h.update (fun r => by split <;> rfl) ?_ rfl rfl h.linksPos ?_
      · intro r hr
        split
        · next hp =>
          obtain ⟨hid, -⟩ := of_decide_eq_true hp
          obtain rfl := h.keyed.eq_of_bmid hr (holds item rfl) hid
          exact ⟨rfl, rfl, rfl, rfl, rfl, rfl, fun _ => rfl⟩
        · exact ⟨rfl, rfl, rfl, rfl, rfl, rfl, fun _ => rfl⟩
      · by_cases hu : uid = rq.uid <;> rintro (_ | _) <;>
          simp [num, setbookmarkmodified, hu]

/-- A bookmark that is edited keeps the tree. The addition through `cp_bookmark.php` has no row: it looks
for the number 0, which none has. -/
theorem editBookmark (h : TreeInv rq.uid db)
    (holds : ∀ r, olds = some r → r ∈ db.bookmark ∧ r.uid = rq.uid ∧ r.type = .site) :
    TreeInv rq.uid (editBookmark php rq texts olds db).2 := by
  simp only [Home.editBookmark]
  split
  · exact h
  · next linkid db₁ hprocess =>
    have hlinks := onlyLinks_bookmarkLinkProcess hprocess
    have hpos := LinksPos.linkKept.bookmarkLinkProcess h.linksPos hprocess
    -- the tags, which are written last, are no part of the tree
    have hedited : ∀ tags : τ, TreeInv rq.uid { (db₁.updateBookmark (fun r => r.bmid = olds.elim 0 (·.bmid))
        (editedRow rq olds texts.subject linkid)).setbookmarkmodified rq.uid rq.supeTimestamp with tags := tags } := by
      intro tags
      refine h.update (f := fun r => if r.bmid = olds.elim 0 (·.bmid) then
        editedRow rq olds texts.subject linkid r else r) (fun r => by split <;> rfl) ?_ ?_
        hlinks.nextBmid hpos ?_
      · intro r hr
        split
        · next hid =>
          cases olds with
          | none =>
            have := (h.keyed.fresh r hr).1
            rw [Option.elim_none] at hid
            omega
          | some item =>
            obtain ⟨hitem, hu, ht⟩ := holds item rfl
            obtain rfl := h.keyed.eq_of_bmid hr hitem hid
            exact ⟨hu.symm, ht.symm, rfl, rfl, rfl, rfl, fun hdir => by rw [ht] at hdir; cases hdir⟩
        · exact ⟨rfl, rfl, rfl, rfl, rfl, rfl, fun _ => rfl⟩
      · simp [setbookmarkmodified_bookmark, updateBookmark_bookmark, hlinks.bookmark]
      · rintro (_ | _) <;> simp [num, setbookmarkmodified, hlinks.space]
    cases olds with
    | none => exact hedited _
    | some item => exact hedited _

theorem removal (php : Php τ) (rq : Request) {rows₀ : List BookmarkRow} (hranked : Ranked rq.uid rows₀) :
    Removal php rq rows₀ (fun db : Database τ => TreeInv rq.uid db) where
  bookmark := by
    intro db row link hkey h hrow hu hlink
    obtain ⟨hmem, -⟩ := hkey.row_eq_some_iff.mp hrow
    have htype : row.type = .site := by
      cases ht : row.type with
      | site => rfl
      | dir =>
        rw [h.dirLink row hmem ht, h.linksPos.linkOf_zero] at hlink
        cases hlink
    refine h.remove hmem hu ?_ (withoutBookmark_bookmark ..) (withoutBookmark_nextBmid ..) ?_ ?_
    · rintro r - - ⟨-, hdir, -⟩
      rw [htype] at hdir
      cases hdir
    · have hown := h.linksPos.addStorenum link.linkid (-1)
      have hsite := h.linksPos.updatesitestorenum link.siteid (-1)
      unfold withoutBookmark
      split
      · exact hsite
      · exact hown
    · unfold withoutBookmark
      rintro (_ | _) <;> split <;>
        simp [num, setLinknum, setbookmarkmodified, htype, Int.sub_eq_add_neg]
  bmdir := by
    intro db dir hkey h hsame htype hu hempty hthere
    refine h.remove (hthere hranked) hu ?_ rfl rfl h.linksPos ?_
    · rintro r hr hru ⟨-, -, hb, hg, -⟩
      have hchild : r ∈ db.children rq.uid dir.browserid dir.groupid :=
        mem_children.mpr ⟨hr, hru, hb.symm, hg.symm⟩
      rw [hempty] at hchild
      exact absurd hchild not_mem_nil
    · rintro (_ | _) <;> simp [num, withoutBmdir, setBmdirnum,
        setbookmarkmodified, htype, Int.sub_eq_add_neg]

theorem deletebookmark (h : TreeInv rq.uid db) {item : BookmarkRow} {bmid : Nat}
    (hrow : db.row bmid = some item) (hu : item.uid = rq.uid) :
    TreeInv rq.uid (deletebookmark php rq bmid db).2 := by
  obtain ⟨hitem, rfl⟩ := h.keyed.row_eq_some_iff.mp hrow
  exact ((removal php rq h.ranked).deletebookmark h.keyed h
    (fun _ hr heq => h.keyed.eq_of_bmid hr hitem heq) hu fun _ => h.level_pos hitem hu).1

theorem deletebookmarkdir (h : TreeInv rq.uid db) {dir : BookmarkRow} (hdir : dir ∈ db.bookmark)
    (hu : dir.uid = rq.uid) (ht : dir.type = .dir) : TreeInv rq.uid (deletebookmarkdir php rq dir.bmid db).2 ∧
      (deletebookmarkdir php rq dir.bmid db).2.bookmark.Sublist db.bookmark := by
  obtain ⟨hinv, hshrunk⟩ := (removal php rq h.ranked).deletebookmarkdir h.keyed h hdir ht hu
    (h.level_pos hdir hu)
  exact ⟨hinv, hshrunk.sublist⟩

theorem clearbookmark (h : TreeInv rq.uid db) : TreeInv rq.uid (clearbookmark php rq db).2 :=
  ((removal php rq h.ranked).clearbookmark h.keyed h fun _ hr =>
    h.level_pos (mem_children.mp hr).1 (mem_children.mp hr).2.1).1

end Requests

end TreeInv

/-! ## Where a new row hangs -/

/-- Every row with a new number hangs under `d`. -/
def NewUnder (d : Nat) (db db' : Database τ) : Prop :=
  ∀ r ∈ db'.bookmark, r.bmid ∉ db.bookmark.map (·.bmid) → r.parentid = d

namespace NewUnder

variable {d : Nat} {db db' : Database τ}

theorem of_bmid (h : ∀ r ∈ db'.bookmark, r.bmid ∈ db.bookmark.map (·.bmid)) : NewUnder d db db' :=
  fun r hr hnew => absurd (h r hr) hnew

theorem of_sublist (h : db'.bookmark.Sublist db.bookmark) : NewUnder d db db' :=
  of_bmid fun _ hr => mem_map_of_mem (h.subset hr)

theorem of_insert {row : BookmarkRow} (hrows : db'.bookmark = db.bookmark ++ [row])
    (hparent : row.parentid = d) : NewUnder d db db' := by
  rw [NewUnder, hrows, forall_mem_append, forall_mem_singleton]
  exact ⟨fun r hr hnew => absurd (mem_map_of_mem hr) hnew, fun _ => hparent⟩

theorem bookmarkPost_uncategorised (php : Php τ) (rq : Request) (hcat : post.category = none)
    (olds : Option BookmarkRow) : NewUnder d db (bookmarkPost php .bmdir rq post olds db).2 := by
  simp only [Home.bookmarkPost, hcat, editBmdir]
  split
  · exact of_sublist (.refl _)
  · split
    · exact of_sublist (.refl _)
    · refine of_bmid fun r hr => ?_
      obtain ⟨x, hx, rfl⟩ := mem_map.mp hr
      refine mem_map.mpr ⟨x, hx, ?_⟩
      split <;> rfl

/-- A post through `cp_bmdir.php` adds under the directory that was found, and under the root when
none was. -/
theorem bookmarkPost (php : Php τ) (rq : Request) (post : Post) (olds : Option BookmarkRow) :
    NewUnder (olds.elim 0 (·.groupid)) db (bookmarkPost php .bmdir rq post olds db).2 := by
  cases hcat : post.category with
  | none => exact bookmarkPost_uncategorised php rq hcat olds
  | some category =>
    simp only [Home.bookmarkPost, hcat]
    split
    · exact of_sublist (.refl _)
    · next texts _ =>
      cases category with
      | dir =>
        simp only [postCategory, addBmdir]
        split
        · exact of_sublist (.refl _)
        · exact of_insert rfl rfl
      | site =>
        have hlinks := onlyLinks_acquireLink php texts.address db
        simp only [postCategory, addBookmark, bookmarkLinkProcess_zero]
        split
        · refine of_sublist ?_
          rw [hlinks.bookmark]
        · exact of_insert (congrArg (· ++ _) hlinks.bookmark) rfl

end NewUnder

/-! ## Runs -/

/-- The columns have room for one more row of the user: the `groupid` of a new directory also fits
`parentid`, the counters of `space` can go up, and there is a `bmid` left. -/
structure Room (uid : Nat) (db : Database τ) : Prop where
  groupid : db.getMaxGroupid uid < 32767
  linknum : (db.space uid).linknum < 32767
  bmdirnum : (db.space uid).bmdirnum < 32767
  bmid : db.nextBmid < 2 ^ 24

/-- The request names what it means: an addition the root or a directory that is there, and it finds
room; an edit through `cp_bookmark.php` with a category a bookmark as a bookmark. -/
def Action.Names (rq : Request) (db : Database τ) : Action → Prop
  | .bmdir _ submit bmdirid post => submit = .deletesubmit ∨ post.category = none ∨
      (Room rq.uid db ∧ (bmdirid = 0 ∨ db.bmdir rq.uid rq.browserid bmdirid ≠ none))
  | .bookmark _ submit bmid post => (submit = .editsubmit → post.category = none ∨
      (post.category = some .site ∧ ∀ r, db.row bmid = some r → r.type = .site)) ∧
      (submit = .addsubmit → Room rq.uid db)
  | .clear => True

/-- **One request that names what it means keeps the tree.** -/
theorem TreeInv.execute {rq : Request} (h : TreeInv rq.uid db) (php : Php τ)
    (a : Action) (hnames : a.Names rq db) : TreeInv rq.uid (execute php rq db a).2 := by
  cases a with
  | clear =>
    show TreeInv rq.uid (answerDelete _).2
    rw [answerDelete_snd]
    exact h.clearbookmark
  | bmdir op submit bmdirid post =>
    show TreeInv rq.uid (cpBmdir php rq op submit bmdirid post db).2
    rcases cpBmdir_cases php rq op submit bmdirid post db with
      ⟨a, hres, -⟩ | ⟨item, hitem, ⟨-, hres⟩ | ⟨dir, rfl, hres⟩⟩
    · rw [hres]
      exact h
    · rw [hres, answerPost_snd]
      have hplace : TreeInv.Place db rq item := by
        rintro d rfl
        obtain ⟨hd, hu, ht, -⟩ := mem_of_bmdiritem hitem
        exact ⟨hd, hu, ht⟩
      cases hcat : post.category with
      | none =>
        simp only [bookmarkPost, hcat]
        exact h.editBmdir fun r hr => (hplace r hr).1
      | some category =>
        have hu : item.elim rq.uid (·.uid) = rq.uid := by
          cases item with
          | none => rfl
          | some d => exact (hplace d rfl).2.1
        rw [bookmarkPost_own hu hcat]
        split
        · exact h
        · cases category with
          | dir => exact h.addBmdir hplace
          | site => exact h.addBookmark hplace
    · rw [hres, answerDelete_snd]
      obtain ⟨hdir, hu, ht, -⟩ := mem_of_bmdiritem hitem
      exact (h.deletebookmarkdir hdir hu ht).1
  | bookmark op submit bmid post =>
    show TreeInv rq.uid (cpBookmark php rq op submit bmid post db).2
    rcases cpBookmark_cases php rq op submit bmid post db with
      ⟨a, hres, -⟩ | ⟨item, hrow, hu, ⟨hedit, hres⟩ | ⟨-, hres⟩ | hres⟩
    · rw [hres]
      exact h
    · rw [hres, answerPost_snd]
      obtain ⟨hitem, -⟩ := h.keyed.row_eq_some_iff.mp hrow
      rcases hnames.1 hedit with hcat | ⟨hcat, hsite⟩
      · simp only [bookmarkPost, hcat]
        refine h.editBmdir ?_
        rintro r hr
        cases hr
        exact hitem
      · rw [bookmarkPost_own (Eq.trans (Option.elim_some ..) hu) hcat]
        split
        · exact h
        · refine h.editBookmark ?_
          rintro r hr
          cases hr
          exact ⟨hitem, hu, hsite item hrow⟩
    · -- the branch without a row: a directory at the root, or nothing
      rw [hres, answerPost_snd]
      cases hcat : post.category with
      | none =>
        simp only [bookmarkPost, hcat]
        exact h.editBmdir (by simp)
      | some category =>
        rw [bookmarkPost_own rfl hcat]
        split
        · exact h
        · cases category with
          | dir => exact h.addBmdir fun d hd => by cases hd
          | site => exact h.editBookmark (by simp)
    · rw [hres, answerDelete_snd]
      exact h.deletebookmark hrow hu

/-- A request to `cp_bmdir.php` that names what it means adds nothing elsewhere. -/
theorem TreeInv.newUnder {rq : Request} (h : TreeInv rq.uid db) (php : Php τ) {op : Op}
    {submit : Submit} {bmdirid : Nat} (hnames : (Action.bmdir op submit bmdirid post).Names rq db) :
    NewUnder bmdirid db (cpBmdir php rq op submit bmdirid post db).2 := by
  rcases cpBmdir_cases php rq op submit bmdirid post db with
    ⟨a, hres, -⟩ | ⟨item, hitem, ⟨hsubmit, hres⟩ | ⟨dir, rfl, hres⟩⟩
  · rw [hres]
    exact .of_sublist (.refl _)
  · rw [hres, answerPost_snd]
    cases hcat : post.category with
    | none => exact .bookmarkPost_uncategorised php rq hcat item
    | some category =>
      have hnew : NewUnder (item.elim 0 (·.groupid)) db _ := .bookmarkPost php rq post item
      have hplace : item.elim 0 (·.groupid) = bmdirid := by
        cases item with
        | some d => exact (mem_of_bmdiritem hitem).2.2.2.1
        | none =>
          rcases hnames with hdel | hnone | ⟨-, hzero | hfound⟩
          · exact absurd hdel hsubmit
          · rw [hcat] at hnone
            cases hnone
          · exact hzero.symm
          · split at hitem
            · next hzero => exact hzero.symm
            · exact absurd hitem hfound
      rw [hplace] at hnew
      exact hnew
  · rw [hres, answerDelete_snd]
    obtain ⟨hdir, hu, ht, -⟩ := mem_of_bmdiritem hitem
    exact .of_sublist (h.deletebookmarkdir hdir hu ht).2

/-- The databases that the requests of one user reach, each naming what it means. -/
inductive TreeRun (php : Php τ) (uid : Nat) (db₀ : Database τ) : Database τ → Prop
  | start : TreeRun php uid db₀ db₀
  | request {db : Database τ} (rq : Request) (a : Action) : TreeRun php uid db₀ db → rq.uid = uid →
      a.Names rq db → TreeRun php uid db₀ (execute php rq db a).2

/-- A user who has no bookmarks yet. -/
structure Newcomer (uid : Nat) (db : Database τ) : Prop where
  keyed : Keyed db
  dirLink : ∀ r ∈ db.bookmark, r.type = .dir → r.linkid = 0
  linksPos : LinksPos db
  rows : ∀ r ∈ db.bookmark, r.uid ≠ uid
  counters : (db.space uid).linknum = 0 ∧ (db.space uid).bmdirnum = 0

theorem Newcomer.treeInv (h : Newcomer uid db) : TreeInv uid db := by
  have hcount : ∀ t : BookmarkType, (db.bookmark.countP fun r => r.uid = uid ∧ r.type = t) = 0 := by
    intro t
    rw [countP_eq_zero]
    intro r hr hp
    exact h.rows r hr (of_decide_eq_true hp).1
  have hgroups : db.groupids uid = [] := by
    refine eq_nil_iff_forall_not_mem.mpr fun g hg => ?_
    obtain ⟨d, hd, hu, -⟩ := mem_groupids.mp hg
    exact h.rows d hd hu
  refine ⟨⟨?_, ?_, fun r hr hu => absurd hu (h.rows r hr), ?_, ?_⟩, h.keyed, h.dirLink, h.linksPos⟩
  · rw [hgroups]
    exact nodup_nil
  · rw [hgroups]
    exact nofun
  · rw [h.counters.1, hcount]
    rfl
  · rw [h.counters.2, hcount]
    rfl

/-- **The tree of a user stands after every run of requests that name what they mean**: group ids
are distinct and at least 8000, parents exist, levels count the way to the root, the counters of
`space` are the numbers of rows; and in every state reached the next addition that names what it
means hangs under the directory it names, if it makes a row at all. -/
theorem treeShape_of_treeRun (php : Php τ) (uid : Nat) (db₀ db : Database τ)
    (hstart : Newcomer uid db₀) (hrun : TreeRun php uid db₀ db) :
    TreeShape uid db ∧ ∀ (rq : Request) (op : Op) (submit : Submit) (bmdirid : Nat) (post : Post),
      rq.uid = uid → (Action.bmdir op submit bmdirid post).Names rq db →
      NewUnder bmdirid db (execute php rq db (.bmdir op submit bmdirid post)).2 := by
  have hinv : TreeInv uid db := by
    induction hrun with
    | start => exact hstart.treeInv
    | request rq a _ hu hnames ih =>
      subst hu
      exact ih.execute php a hnames
  refine ⟨hinv.toTreeShape, ?_⟩
  rintro rq op submit bmdirid post rfl hnames
  exact hinv.newUnder php hnames

/-- A directory at the root; in empty tables it gets the number 8000. -/
def makeDirectory : Action := .bmdir .add .addsubmit 0 ⟨some .dir, ['d'], [], [], []⟩

def deleteDirectory : Action := .bmdir .delete .deletesubmit 8000 ⟨none, [], [], [], []⟩

def fillDirectory : Action :=
  .bmdir .add .addsubmit 8000 ⟨some .site, ['n'], "http://a".toList, [], []⟩

/-- The directory, posted to `cp_bookmark.php` as if it were a bookmark. -/
def retypeDirectory : Action :=
  .bookmark .edit .editsubmit 1 ⟨some .site, ['n'], "http://a".toList, [], []⟩

/-- The database after some requests of one user on empty tables. -/
def after (actions : List Action) : Database Unit :=
  actions.foldl (fun db a => (execute plainPhp sampleRequest db a).2) { tags := () }

/-- A directory and a bookmark in it. -/
theorem treeShape_of_treeRun_sample :
    (after [makeDirectory, fillDirectory]).bookmark.map (fun r => (r.parentid, r.level)) =
      [(0, 1), (8000, 2)] ∧ TreeShape 1 (after [makeDirectory, fillDirectory]) := by
  have hstart : Newcomer 1 ({ tags := () } : Database Unit) :=
    ⟨⟨nodup_nil, nofun, Nat.one_pos⟩, nofun, ⟨Nat.one_pos, nofun⟩, nofun, rfl, rfl⟩
  refine ⟨by decide +kernel, (treeShape_of_treeRun plainPhp 1 { tags := () } _ hstart ?_).1⟩
  refine .request sampleRequest fillDirectory (.request sampleRequest makeDirectory .start rfl ?_)
    rfl ?_
  · exact .inr (.inr ⟨⟨by decide, by decide, by decide, by decide⟩, .inl rfl⟩)
  · exact .inr (.inr ⟨⟨by decide +kernel, by decide +kernel, by decide +kernel, by decide +kernel⟩,
      .inr (by decide +kernel)⟩)

/-- **A directory deleted meanwhile.** The bookmark that should go there is made at the root. And a
directory edited as a bookmark is one from then on, with its children still under it. -/
theorem execute_lost_parent : ¬ NewUnder 8000 (after [makeDirectory, deleteDirectory])
        (after [makeDirectory, deleteDirectory, fillDirectory]) ∧
      ¬ TreeShape 1 (after [makeDirectory, fillDirectory, retypeDirectory]) := by
  constructor
  · intro h
    have hrow : ∃ r ∈ (after [makeDirectory, deleteDirectory, fillDirectory]).bookmark,
        r.bmid ∉ (after [makeDirectory, deleteDirectory]).bookmark.map (·.bmid) ∧ r.parentid = 0 := by
      decide +kernel
    obtain ⟨r, hr, hnew, hroot⟩ := hrow
    have := h r hr hnew
    omega
  · intro h
    have hdirs : (after [makeDirectory, fillDirectory, retypeDirectory]).bookmark.countP
        (fun r => r.uid = 1 ∧ r.type = .dir) = 0 := by decide +kernel
    have hnum : ((after [makeDirectory, fillDirectory, retypeDirectory]).space 1).bmdirnum = 1 := by
      decide +kernel
    have hcount := h.bmdirnum
    rw [hdirs, hnum] at hcount
    omega

end Home
