/-
# MipsOnQemu.Home.Keys -- the primary key of `bookmark`, and what deletions remove

`bmid` names one row. An insertion takes a number that was never used, so an update or a deletion
by number meets one row at most.

A directory is deleted from the leaves up. `Removal` collects what a property of the tables must
survive: the removal of a bookmark, and that of a directory nothing lies in. Every such property
survives `deletebookmarkdir` and `clearbookmark`, however they end
(`Removal.deletebookmarkdir`, `Removal.clearbookmark`).
-/

import MipsOnQemu.Home.Tables

namespace Home

open List
open MyLaunch (QString Browser)

variable {τ : Type}

/-! ## The key -/

theorem find?_key_eq_some_iff {α : Type} {key : α → Nat} {l : List α} (h : (l.map key).Nodup) {k : Nat}
    {a : α} : l.find? (fun x => key x = k) = some a ↔ a ∈ l ∧ key a = k := by
  constructor
  · intro hfind
    exact ⟨mem_of_find?_eq_some hfind, by simpa using List.find?_some hfind⟩
  · rintro ⟨ha, rfl⟩
    have hsome : (l.find? fun x => key x = key a).isSome := find?_isSome.mpr ⟨a, ha, decide_eq_true rfl⟩
    obtain ⟨a', hfind⟩ := Option.isSome_iff_exists.mp hsome
    have hkey : key a' = key a := by simpa using List.find?_some hfind
    rw [hfind, inj_on_of_nodup_map h (mem_of_find?_eq_some hfind) ha hkey]

theorem nodup_key_append {α : Type} {key : α → Nat} {l : List α} {a : α} (h : (l.map key).Nodup)
    (hlt : ∀ x ∈ l, key x < key a) : ((l ++ [a]).map key).Nodup := by
  rw [map_append, map_singleton, (perm_append_singleton _ _).nodup_iff, nodup_cons]
  refine ⟨fun hmem => ?_, h⟩
  obtain ⟨x, hx, heq⟩ := mem_map.mp hmem
  exact (hlt x hx).ne heq

/-- The `bmid`s of a table are distinct, positive and used up. -/
structure Keyed (db : Database τ) : Prop where
  nodup : (db.bookmark.map (·.bmid)).Nodup
  fresh : ∀ r ∈ db.bookmark, 0 < r.bmid ∧ r.bmid < db.nextBmid
  pos : 0 < db.nextBmid

variable {r : BookmarkRow}

namespace Keyed

variable {db : Database τ}

section

variable (h : Keyed db)
include h

theorem eq_of_bmid {r' : BookmarkRow} (hr : r ∈ db.bookmark)
    (hr' : r' ∈ db.bookmark) (heq : r.bmid = r'.bmid) : r = r' :=
  inj_on_of_nodup_map h.nodup hr hr' heq

theorem row_eq_some_iff {bmid : Nat} : db.row bmid = some r ↔ r ∈ db.bookmark ∧ r.bmid = bmid :=
  find?_key_eq_some_iff h.nodup

theorem perm_cons_filter (hr : r ∈ db.bookmark) :
    db.bookmark.Perm (r :: db.bookmark.filter fun x => x.bmid ≠ r.bmid) := by
  have herase : db.bookmark.erase r = db.bookmark.filter fun x => x.bmid ≠ r.bmid := by
    rw [(List.Nodup.of_map _ h.nodup).erase_eq_filter]
    refine filter_congr fun x hx => ?_
    have hiff : x = r ↔ x.bmid = r.bmid := ⟨congrArg _, h.eq_of_bmid hx hr⟩
    rw [Bool.eq_iff_iff]
    simp [hiff]
  rw [← herase]
  exact perm_cons_erase hr

theorem perm_map_update (hr : r ∈ db.bookmark) (f : BookmarkRow → BookmarkRow) :
    (db.bookmark.map fun x => if x.bmid = r.bmid then f x else x).Perm
      (f r :: db.bookmark.filter fun x => x.bmid ≠ r.bmid) := by
  have hmap := (h.perm_cons_filter hr).map fun x => if x.bmid = r.bmid then f x else x
  rw [map_cons, if_pos rfl] at hmap
  have hrest : (db.bookmark.filter fun x => x.bmid ≠ r.bmid).map
      (fun x => if x.bmid = r.bmid then f x else x) =
        db.bookmark.filter fun x => x.bmid ≠ r.bmid := by
    refine (map_congr_left fun x hx => ?_).trans (map_id _)
    have hne := of_decide_eq_true (mem_filter.mp hx).2
    rw [if_neg hne, id]
  rw [hrest] at hmap
  exact hmap

variable {db' : Database τ}

theorem of_sublist (hsub : db'.bookmark.Sublist db.bookmark) (hnext : db'.nextBmid = db.nextBmid) : Keyed db' :=
  ⟨h.nodup.sublist (hsub.map _), fun r hr => hnext ▸ h.fresh r (hsub.subset hr), hnext ▸ h.pos⟩

theorem insert {row : BookmarkRow} (hrows : db'.bookmark = db.bookmark ++ [{ row with bmid := db.nextBmid }])
    (hnext : db'.nextBmid = db.nextBmid + 1) : Keyed db' := by
  refine ⟨?_, ?_, by omega⟩
  · rw [hrows]
    exact nodup_key_append h.nodup fun r hr => (h.fresh r hr).2
  · rw [hrows, hnext, forall_mem_append, forall_mem_singleton]
    refine ⟨fun r hr => ?_, h.pos, Nat.lt_succ_self _⟩
    exact (h.fresh r hr).imp_right Nat.lt_succ_of_lt

theorem update {f : BookmarkRow → BookmarkRow}
    (hf : ∀ r, (f r).bmid = r.bmid) (hrows : db'.bookmark = db.bookmark.map f)
    (hnext : db'.nextBmid = db.nextBmid) : Keyed db' := by
  refine ⟨?_, ?_, hnext ▸ h.pos⟩
  · have hcomp : (fun x : BookmarkRow => x.bmid) ∘ f = fun x => x.bmid := funext hf
    rw [hrows, map_map, hcomp]
    exact h.nodup
  · intro r hr
    rw [hrows] at hr
    obtain ⟨x, hx, rfl⟩ := mem_map.mp hr
    rw [hf, hnext]
    exact h.fresh x hx

end

end Keyed

/-! ## Deletions -/

section Removal

variable (php : Php τ) (rq : Request)

/-- The tables after `deletebookmark` of a row whose link is `link`. -/
def withoutBookmark (bmid : Nat) (link : LinkRow) (db : Database τ) : Database τ :=
  let db := if link.siteid ≠ 0 then db.updatesitestorenum link.siteid (-1)
    else db.addStorenum link.linkid (-1)
  let db := { db with tags := php.tagDelete bmid db.tags }
  ((db.deleteRow bmid).setbookmarkmodified rq.uid rq.supeTimestamp).setLinknum rq.uid (-1)

/-- The tables after the last step of `deletebookmarkdir`. -/
def withoutBmdir (bmid : Nat) (db : Database τ) : Database τ :=
  ((db.deleteRow bmid).setbookmarkmodified rq.uid rq.supeTimestamp).setBmdirnum rq.uid (-1)

@[simp] theorem withoutBookmark_bookmark (bmid : Nat) (link : LinkRow) (db : Database τ) :
    (withoutBookmark php rq bmid link db).bookmark = db.bookmark.filter fun r => r.bmid ≠ bmid := by
  unfold withoutBookmark
  split <;> rfl

@[simp] theorem withoutBookmark_nextBmid (bmid : Nat) (link : LinkRow) (db : Database τ) :
    (withoutBookmark php rq bmid link db).nextBmid = db.nextBmid := by
  unfold withoutBookmark
  split <;> rfl

theorem deletebookmark_cases (bmid : Nat) (db : Database τ) :
    (deletebookmark php rq bmid db = (.missing, db) ∧ ∀ r ∈ db.bookmark, r.bmid ≠ bmid) ∨
      deletebookmark php rq bmid db = (.queryError, db) ∨
      ∃ row link, db.row bmid = some row ∧ db.linkOf row.linkid = some link ∧
        deletebookmark php rq bmid db = (.done, withoutBookmark php rq bmid link db) := by
  unfold deletebookmark
  cases hrow : db.row bmid with
  | none =>
    refine .inl ⟨rfl, fun r hr heq => ?_⟩
    rw [Database.row, List.find?_eq_none] at hrow
    exact hrow r hr (decide_eq_true heq)
  | some row =>
    cases hlink : db.linkOf row.linkid with
    | none => exact .inr (.inl (by simp only [hlink]))
    | some link => exact .inr (.inr ⟨row, link, rfl, hlink, by simp only [hlink]; rfl⟩)

/-- A child stands at a deeper level than its directory. -/
def Ranked (uid : Nat) (rows : List BookmarkRow) : Prop :=
  ∀ dir ∈ rows, ∀ r ∈ rows, dir.type = .dir → dir.uid = uid → r.uid = uid →
    r.browserid = dir.browserid → r.parentid = dir.groupid → dir.level < r.level

/-- **What a property must survive to survive every deletion** that starts from the rows `rows₀`:
the removal of a bookmark and of a directory that nothing lies in. Where levels grow from a
directory to its children, the directory is still there when its turn comes. -/
structure Removal (rows₀ : List BookmarkRow) (P : Database τ → Prop) : Prop where
  bookmark : ∀ {db : Database τ} {row : BookmarkRow} {link : LinkRow}, Keyed db → P db →
    db.row row.bmid = some row → row.uid = rq.uid → db.linkOf row.linkid = some link →
    P (withoutBookmark php rq row.bmid link db)
  bmdir : ∀ {db : Database τ} {dir : BookmarkRow}, Keyed db → P db →
    (∀ r ∈ db.bookmark, r.bmid = dir.bmid → r = dir) → dir.type = .dir → dir.uid = rq.uid →
    db.children rq.uid dir.browserid dir.groupid = [] →
    (Ranked rq.uid rows₀ → dir ∈ db.bookmark) → P (withoutBmdir rq dir.bmid db)

variable {php rq} {rows₀ : List BookmarkRow} {P : Database τ → Prop}

/-- What a deletion keeps of the table: rows only go, among them those it was asked to delete, and
where levels grow no row at level `n` or above goes. -/
structure Shrunk (rows₀ : List BookmarkRow) (uid n : Nat) (gone : Nat → Prop) (ok : Prop)
    (db db' : Database τ) : Prop where
  sublist : db'.bookmark.Sublist db.bookmark
  nextBmid : db'.nextBmid = db.nextBmid
  gone : ok → ∀ r ∈ db'.bookmark, ¬ gone r.bmid
  stays : Ranked uid rows₀ → ∀ r ∈ db.bookmark, r.level ≤ n → r ∈ db'.bookmark

/-- What is asked of the function that deletes a directory in the loop over rows. -/
def DeletesDir (rows₀ : List BookmarkRow) (P : Database τ → Prop) (rq : Request)
    (deleteDir : Nat → Database τ → Deleted × Database τ) : Prop :=
  ∀ {db : Database τ} {dir : BookmarkRow} {n : Nat}, db.bookmark.Sublist rows₀ → Keyed db → P db →
    (∀ r ∈ db.bookmark, r.bmid = dir.bmid → r = dir) → dir.type = .dir → dir.uid = rq.uid →
    (Ranked rq.uid rows₀ → n < dir.level) →
    P (deleteDir dir.bmid db).2 ∧ Shrunk rows₀ rq.uid n (· = dir.bmid)
      ((deleteDir dir.bmid db).1 ≠ .queryError) db (deleteDir dir.bmid db).2

namespace Shrunk

variable {uid n : Nat} {gone gone' : Nat → Prop} {ok : Prop} {db db' db'' : Database τ}

theorem refl (hgone : ok → ∀ r ∈ db.bookmark, ¬ gone r.bmid) : Shrunk rows₀ uid n gone ok db db :=
  ⟨.refl _, rfl, hgone, fun _ _ hr _ => hr⟩

theorem trans (h : Shrunk rows₀ uid n gone True db db') (h' : Shrunk rows₀ uid n gone' ok db' db'') :
    Shrunk rows₀ uid n (fun i => gone i ∨ gone' i) ok db db'' := by
  refine ⟨h'.sublist.trans h.sublist, h'.nextBmid.trans h.nextBmid, ?_, ?_⟩
  · rintro hok r hr (hg | hg)
    · exact h.gone trivial r (h'.sublist.subset hr) hg
    · exact h'.gone hok r hr hg
  · intro hranked r hr hn
    exact h'.stays hranked r (h.stays hranked r hr hn) hn

theorem filter {x : BookmarkRow} (hx : ∀ r ∈ db.bookmark, r.bmid = x.bmid → r = x)
    (hlevel : Ranked uid rows₀ → n < x.level)
    (hrows : db'.bookmark = db.bookmark.filter fun r => r.bmid ≠ x.bmid)
    (hnext : db'.nextBmid = db.nextBmid) : Shrunk rows₀ uid n (· = x.bmid) ok db db' := by
  refine ⟨?_, hnext, ?_, ?_⟩
  · rw [hrows]
    exact filter_sublist
  · intro _ r hr
    rw [hrows] at hr
    exact of_decide_eq_true (mem_filter.mp hr).2
  · intro hranked r hr hn
    rw [hrows]
    refine mem_filter.mpr ⟨hr, decide_eq_true fun heq => ?_⟩
    have := hlevel hranked
    rw [hx r hr heq] at hn
    omega

end Shrunk

variable {db : Database τ}

theorem Removal.deletebookmark (h : Removal php rq rows₀ P) {x : BookmarkRow}
    {n : Nat} (hkey : Keyed db) (hP : P db) (hx : ∀ r ∈ db.bookmark, r.bmid = x.bmid → r = x)
    (huid : x.uid = rq.uid) (hlevel : Ranked rq.uid rows₀ → n < x.level) :
    P (deletebookmark php rq x.bmid db).2 ∧ Shrunk rows₀ rq.uid n (· = x.bmid)
      ((deletebookmark php rq x.bmid db).1 ≠ .queryError) db
      (deletebookmark php rq x.bmid db).2 := by
  rcases deletebookmark_cases php rq x.bmid db with ⟨hres, hnone⟩ | hres | ⟨row, link, hrow, hlink, hres⟩
  · rw [hres]
    exact ⟨hP, .refl fun _ => hnone⟩
  · rw [hres]
    exact ⟨hP, .refl fun hok => absurd rfl hok⟩
  · rw [hres]
    obtain ⟨hmem, hid⟩ := hkey.row_eq_some_iff.mp hrow
    obtain rfl := hx row hmem hid
    exact ⟨h.bookmark hkey hP hrow huid hlink, .filter hx hlevel (withoutBookmark_bookmark ..)
      (withoutBookmark_nextBmid ..)⟩

theorem Removal.deleteEach (h : Removal php rq rows₀ P)
    {deleteDir : Nat → Database τ → Deleted × Database τ} (hdir : DeletesDir rows₀ P rq deleteDir)
    {n : Nat} (rows : List BookmarkRow) : ∀ {db : Database τ}, db.bookmark.Sublist rows₀ →
      Keyed db → P db → (∀ x ∈ rows, ∀ r ∈ db.bookmark, r.bmid = x.bmid → r = x) →
      (∀ x ∈ rows, x.uid = rq.uid) → (Ranked rq.uid rows₀ → ∀ x ∈ rows, n < x.level) →
      P (deleteEach php rq deleteDir rows db).2 ∧ Shrunk rows₀ rq.uid n (fun i => ∃ x ∈ rows, i = x.bmid)
          ((deleteEach php rq deleteDir rows db).1 ≠ .queryError) db
          (deleteEach php rq deleteDir rows db).2 := by
  induction rows with
  | nil =>
    intro db _ _ hP _ _ _
    exact ⟨hP, .refl fun _ r _ ⟨x, hx, _⟩ => absurd hx not_mem_nil⟩
  | cons x rows ih =>
    intro db hsub hkey hP hsame huid hlevel
    -- the first row, by whichever function
    have hfirst : ∃ res db₁, deleteFetched php rq deleteDir x db = (res, db₁) ∧ P db₁ ∧
        Shrunk rows₀ rq.uid n (· = x.bmid) (res ≠ .queryError) db db₁ := by
      have hx := hsame x mem_cons_self
      have hn : Ranked rq.uid rows₀ → n < x.level := fun hr => hlevel hr x mem_cons_self
      unfold deleteFetched
      cases htype : x.type with
      | dir => exact ⟨_, _, rfl, hdir hsub hkey hP hx htype (huid x mem_cons_self) hn⟩
      | site => exact ⟨_, _, rfl, h.deletebookmark hkey hP hx (huid x mem_cons_self) hn⟩
    obtain ⟨res, db₁, hres, hP₁, hshrunk⟩ := hfirst
    rw [Home.deleteEach, hres]
    dsimp only
    by_cases hquery : res = .queryError
    · rw [if_pos hquery]
      exact ⟨hP₁, hshrunk.sublist, hshrunk.nextBmid, fun hok => absurd rfl hok, hshrunk.stays⟩
    · rw [if_neg hquery]
      replace hshrunk : Shrunk rows₀ rq.uid n (· = x.bmid) True db db₁ :=
        ⟨hshrunk.sublist, hshrunk.nextBmid, fun _ => hshrunk.gone hquery, hshrunk.stays⟩
      obtain ⟨hP₂, hrest⟩ := ih (hshrunk.sublist.trans hsub)
        (hkey.of_sublist hshrunk.sublist hshrunk.nextBmid) hP₁
        (fun y hy r hr => hsame y (mem_cons_of_mem _ hy) r (hshrunk.sublist.subset hr))
        (fun y hy => huid y (mem_cons_of_mem _ hy))
        (fun hr y hy => hlevel hr y (mem_cons_of_mem _ hy))
      refine ⟨hP₂, ?_⟩
      have htrans := hshrunk.trans hrest
      refine ⟨htrans.sublist, htrans.nextBmid, fun hok r hr => ?_, htrans.stays⟩
      rintro ⟨y, hy, heq⟩
      refine htrans.gone hok r hr ?_
      rcases mem_cons.mp hy with rfl | hy
      · exact .inl heq
      · exact .inr ⟨y, hy, heq⟩

theorem mem_children {uid d : Nat} {b : Browser} : r ∈ db.children uid b d ↔
      r ∈ db.bookmark ∧ r.uid = uid ∧ r.browserid = b ∧ r.parentid = d := by
  rw [Database.children, mem_filter, decide_eq_true_eq]

theorem Removal.deletebookmarkdirFuel (h : Removal php rq rows₀ P) (fuel : Nat) :
    DeletesDir rows₀ P rq (deletebookmarkdirFuel php rq fuel) := by
  induction fuel with
  | zero =>
    intro db dir n _ _ hP _ _ _ _
    exact ⟨hP, .refl fun hok => absurd rfl hok⟩
  | succ fuel ih =>
    intro db dir n hsub hkey hP hsame htype huid hlevel
    rw [Home.deletebookmarkdirFuel]
    cases hrow : db.row dir.bmid with
    | none => exact ⟨hP, .refl fun hok => absurd rfl hok⟩
    | some dir' =>
      obtain ⟨hmem, hid⟩ := hkey.row_eq_some_iff.mp hrow
      obtain rfl := hsame dir' hmem hid
      -- the children go first, all of them at deeper levels
      have hloop := h.deleteEach ih (n := dir'.level)
        (db.children rq.uid dir'.browserid dir'.groupid) hsub hkey hP
        (fun x hx r hr heq => hkey.eq_of_bmid hr (mem_children.mp hx).1 heq)
        (fun x hx => (mem_children.mp hx).2.1)
        (fun hranked x hx => by
          obtain ⟨hx, hxu, hxb, hxp⟩ := mem_children.mp hx
          exact hranked dir' (hsub.subset hmem) x (hsub.subset hx) htype huid hxu hxb hxp)
      dsimp only
      generalize Home.deleteEach php rq (Home.deletebookmarkdirFuel php rq fuel)
        (db.children rq.uid dir'.browserid dir'.groupid) db = loop at hloop ⊢
      obtain ⟨res, db₁⟩ := loop
      obtain ⟨hP₁, hshrunk⟩ := hloop
      have hstays : Ranked rq.uid rows₀ → ∀ r ∈ db.bookmark, r.level ≤ n → r ∈ db₁.bookmark := by
        intro hranked r hr hn
        have := hlevel hranked
        exact hshrunk.stays hranked r hr (by omega)
      by_cases hquery : res = .queryError
      · simp only [hquery, if_true]
        exact ⟨hP₁, hshrunk.sublist, hshrunk.nextBmid, fun hok => absurd rfl hok, hstays⟩
      · simp only [hquery, if_false]
        have hempty : db₁.children rq.uid dir'.browserid dir'.groupid = [] := by
          refine eq_nil_iff_forall_not_mem.mpr fun r hr => ?_
          obtain ⟨hr, hrest⟩ := mem_children.mp hr
          exact hshrunk.gone hquery r hr
            ⟨r, mem_children.mpr ⟨hshrunk.sublist.subset hr, hrest⟩, rfl⟩
        have hsame₁ : ∀ r ∈ db₁.bookmark, r.bmid = dir'.bmid → r = dir' :=
          fun r hr => hsame r (hshrunk.sublist.subset hr)
        refine ⟨h.bmdir (hkey.of_sublist hshrunk.sublist hshrunk.nextBmid) hP₁ hsame₁ htype huid
          hempty fun hranked => hshrunk.stays hranked dir' hmem le_rfl, ?_⟩
        have hlast : Shrunk rows₀ rq.uid n (· = dir'.bmid) True db₁ (withoutBmdir rq dir'.bmid db₁) :=
          .filter hsame₁ hlevel rfl rfl
        exact ⟨hlast.sublist.trans hshrunk.sublist, hshrunk.nextBmid, fun _ => hlast.gone trivial,
          fun hranked r hr hn => hlast.stays hranked r (hstays hranked r hr hn) hn⟩

/-- **A property that survives removals survives the deletion of a directory.** -/
theorem Removal.deletebookmarkdir (h : Removal php rq db.bookmark P)
    (hkey : Keyed db) (hP : P db) {dir : BookmarkRow} (hmem : dir ∈ db.bookmark)
    (htype : dir.type = .dir) (huid : dir.uid = rq.uid) (hlevel : 0 < dir.level) :
    P (deletebookmarkdir php rq dir.bmid db).2 ∧ Shrunk db.bookmark rq.uid 0 (· = dir.bmid)
      ((deletebookmarkdir php rq dir.bmid db).1 ≠ .queryError) db
      (deletebookmarkdir php rq dir.bmid db).2 :=
  h.deletebookmarkdirFuel _ (.refl _) hkey hP (fun _ hr heq => hkey.eq_of_bmid hr hmem heq) htype
    huid fun _ => hlevel

/-- **A property that survives removals survives the clearing of a browser.** -/
theorem Removal.clearbookmark (h : Removal php rq db.bookmark P) (hkey : Keyed db) (hP : P db)
    (hlevel : ∀ r ∈ db.children rq.uid rq.browserid 0, 0 < r.level) :
    P (clearbookmark php rq db).2 ∧ Shrunk db.bookmark rq.uid 0
      (fun i => ∃ x ∈ db.children rq.uid rq.browserid 0, i = x.bmid)
      ((clearbookmark php rq db).1 ≠ .queryError) db (clearbookmark php rq db).2 :=
  h.deleteEach (h.deletebookmarkdirFuel _) _ (.refl _) hkey hP
    (fun _ hx _ hr heq => hkey.eq_of_bmid hr (mem_children.mp hx).1 heq)
    (fun _ hx => (mem_children.mp hx).2.1)
    (fun _ => hlevel)

end Removal

end Home
