/-
# MipsOnQemu.Home.Refusal -- what a refused addition leaves behind

`bookmark_post` refuses a directory before it has written anything. It refuses a bookmark only
after `bookmark_link_process` has counted the link, so the count of a known link or site goes up
and a link that was not known is inserted, for a bookmark that is never made.
-/

import MipsOnQemu.Home.Tables

namespace Home

open Database List

open MyLaunch (QString Browser)

variable {τ : Type}

/-- The tables of the two databases hold the same rows. -/
structure SameTables (db db' : Database τ) : Prop where
  bookmark : db'.bookmark = db.bookmark
  link : db'.link = db.link
  site : db'.site = db.site
  tags : db'.tags = db.tags
  space : db'.space = db.space

theorem SameTables.refl (db : Database τ) : SameTables db db := ⟨rfl, rfl, rfl, rfl, rfl⟩

/-! ## Counting a link -/

/-- An update that leaves no row as it is leaves a table as it is exactly when it finds no row. -/
theorem map_update_eq_self_iff {α : Type} {p : α → Bool} {f : α → α} (hf : ∀ r, f r ≠ r) {l : List α} :
    (l.map fun r => if p r then f r else r) = l ↔ l.find? p = none := by
  rw [find?_eq_none]
  induction l with
  | nil => simp
  | cons r l ih =>
    rw [map_cons, cons.injEq, ih, forall_mem_cons]
    refine and_congr_left fun _ => ?_
    by_cases hr : p r
    · simp [hr, hf]
    · simp [hr]

variable {db : Database τ} {php : Php τ}

theorem addStorenum_link_eq_iff {linkid : Nat} {n : Int} (hn : n ≠ 0) :
    (db.addStorenum linkid n).link = db.link ↔ db.linkOf linkid = none := by
  rw [linkOf, ← map_update_eq_self_iff (f := fun r => { r with storenum := r.storenum + n })]
  · simp [addStorenum]
  · intro r hr
    have := congrArg LinkRow.storenum hr
    simp only at this
    omega

theorem updatesitestorenum_site_eq_iff {siteid : Nat} {n : Int} (hn : n ≠ 0) :
    (db.updatesitestorenum siteid n).site = db.site ↔ db.siteOf siteid = none := by
  rw [siteOf, ← map_update_eq_self_iff (f := fun r => { r with storenum := r.storenum + n })]
  · simp [updatesitestorenum]
  · intro r hr
    have := congrArg SiteRow.storenum hr
    simp only at this
    omega

theorem insertLink_ne (db : Database τ) (row : LinkRow) : (db.insertLink row).link ≠ db.link := by
  intro h
  have := congrArg length h
  simp [insertLink] at this

/-- Taking a link for a URL writes to a table, unless the link belongs to a site that is gone. -/
theorem sameTables_acquireLink_iff {url : QString} : SameTables db (acquireLink php url db).2 ↔
      ∃ link, knownLink php url db = some link ∧ link.siteid ≠ 0 ∧ db.siteOf link.siteid = none := by
  unfold acquireLink
  cases hknown : knownLink php url db with
  | some link =>
    have hmem : link ∈ db.link := mem_of_find?_eq_some hknown
    by_cases hsite : link.siteid = 0
    · -- a link of its own: its count goes up
      simp only [hsite, ne_eq, not_true_eq_false, if_false]
      constructor
      · intro h
        have hnone := (addStorenum_link_eq_iff (by omega)).mp h.link
        rw [linkOf, find?_eq_none] at hnone
        exact absurd (decide_eq_true rfl) (hnone link hmem)
      · rintro ⟨link', hlink', hsite', -⟩
        obtain rfl := Option.some.inj hlink'
        exact absurd hsite hsite'
    · -- a link of a site: the count of the site goes up, if it is there
      simp only [ne_eq, hsite, not_false_eq_true, if_true]
      constructor
      · intro h
        exact ⟨link, rfl, hsite, (updatesitestorenum_site_eq_iff (by omega)).mp h.site⟩
      · rintro ⟨link', hlink', -, hnone⟩
        obtain rfl := Option.some.inj hlink'
        exact ⟨rfl, rfl, (updatesitestorenum_site_eq_iff (by omega)).mpr hnone, rfl, rfl⟩
  | none =>
    -- a new link is inserted, with or without a site
    have hno : ¬ ∃ link, (none : Option LinkRow) = some link ∧ link.siteid ≠ 0 ∧
        db.siteOf link.siteid = none := by
      rintro ⟨link, hlink, -⟩
      cases hlink
    refine iff_of_false (fun h => ?_) hno
    have hlink := h.link
    dsimp only at hlink
    split at hlink
    · split at hlink
      · exact insertLink_ne (db.updatesitestorenum _ 1) _ hlink
      · exact insertLink_ne db _ hlink
    · exact insertLink_ne db _ hlink

theorem bookmarkLinkProcess_zero {url : QString} :
    bookmarkLinkProcess php 0 url db = some (acquireLink php url db) := rfl

/-! ## Refused posts -/

/-- The two refusals for want of room. -/
def PostError.IsOverflow (e : PostError) : Prop :=
  e = .errBookmarkAddOverflow ∨ e = .errBmdirAddOverflow

/-- What a post refused for want of room has done: nothing for a directory, and for a bookmark
it has taken the link. -/
theorem bookmarkPost_overflow {ac : Ac} {rq : Request} {post : Post} {olds : Option BookmarkRow} {e : PostError}
    (h : (bookmarkPost php ac rq post olds db).1 = .error e) (he : e.IsOverflow) :
    (post.category = some .dir ∧ (bookmarkPost php ac rq post olds db).2 = db) ∨
      ∃ texts, post.category = some .site ∧
        postTexts php { rq with uid := olds.elim rq.uid (·.uid) } post = some texts ∧
        (bookmarkPost php ac rq post olds db).2 = (acquireLink php texts.address db).2 := by
  unfold bookmarkPost at h ⊢
  dsimp only at h ⊢
  cases hcat : post.category with
  | none =>
    simp only [hcat, editBmdir] at h
    split at h
    · cases h
      rcases he with he | he <;> cases he
    · split at h
      · cases h
        rcases he with he | he <;> cases he
      · cases h
  | some category =>
    simp only [hcat] at h ⊢
    cases htexts : postTexts php { rq with uid := olds.elim rq.uid (·.uid) } post with
    | none =>
      simp only [htexts] at h
      cases h
      rcases he with he | he <;> cases he
    | some texts =>
      simp only [htexts] at h ⊢
      cases category with
      | dir =>
        simp only [postCategory, addBmdir] at h ⊢
        split at h
        · next hfull => exact .inl ⟨trivial, by rw [if_pos hfull]⟩
        · cases h
      | site =>
        refine .inr ⟨texts, rfl, rfl, ?_⟩
        cases ac with
        | bmdir =>
          simp only [postCategory, addBookmark, bookmarkLinkProcess_zero] at h ⊢
          split at h
          · next hfull => rw [if_pos hfull]
          · cases h
        | bookmark =>
          simp only [postCategory, editBookmark] at h
          split at h
          · cases h
            rcases he with he | he <;> cases he
          · split at h
            · cases h
              rcases he with he | he <;> cases he
            · cases h

/-- **A refused addition leaves the tables alone exactly when it was for a directory**, or when
the link it counted belongs to a site that no longer exists. -/
theorem bookmarkPost_overflow_sameTables_iff (php : Php τ) (ac : Ac) (rq : Request) (post : Post)
    (olds : Option BookmarkRow) (db : Database τ) (e : PostError)
    (h : (bookmarkPost php ac rq post olds db).1 = .error e) (he : e.IsOverflow) :
    SameTables db (bookmarkPost php ac rq post olds db).2 ↔ post.category = some .dir ∨
        ∃ texts link, postTexts php { rq with uid := olds.elim rq.uid (·.uid) } post = some texts ∧
          knownLink php texts.address db = some link ∧ link.siteid ≠ 0 ∧
          db.siteOf link.siteid = none := by
  rcases bookmarkPost_overflow h he with ⟨hcat, hdb⟩ | ⟨texts, hcat, htexts, hdb⟩
  · rw [hdb]
    exact iff_of_true (SameTables.refl db) (.inl hcat)
  · rw [hdb, sameTables_acquireLink_iff]
    constructor
    · rintro ⟨link, hlink⟩
      exact .inr ⟨texts, link, htexts, hlink⟩
    · rintro (hdir | ⟨texts', link, htexts', hlink⟩)
      · rw [hcat] at hdir
        cases hdir
      · rw [htexts] at htexts'
        cases htexts'
        exact ⟨link, hlink⟩

/-- A server without a word filter, with plain stand-ins for the hashes. -/
def plainPhp : Php Unit where
  qhash := length
  md5 := id
  sgmdate := fun _ => "2010-06-04".toList
  banned := fun _ => false
  filter := id
  tagBatch := fun _ _ _ => ()
  tagDelete := fun _ _ => ()

/-- A request of user 1 for the favourites of Internet Explorer. -/
def sampleRequest : Request where
  uid := 1
  browserid := .ie
  client := true
  timestamp := 1275963204
  fraction := 5000000

/-- A root that holds as many bookmarks as it may, all of one link. -/
def fullRoot : Database Unit where
  bookmark := (range 128).map fun i =>
    { bmid := i + 1, uid := 1, parentid := 0, linkid := 1, level := 1, subject := ['a'],
      type := .site, lastvisit := 0, browserid := .ie }
  link := [⟨1, 0, "http://a".toList, 8, "http://a".toList, 128⟩]
  space := fun _ => { linknum := 128 }
  tags := ()
  nextBmid := 129
  nextLinkid := 2

/-- A directory at the last level that may hold bookmarks. -/
def deepDirectory : BookmarkRow where
  bmid := 1
  uid := 1
  groupid := 8003
  parentid := 8002
  level := 4
  subject := ['d']
  type := .dir
  lastvisit := 0
  browserid := .ie

/-- A directory below the last level is refused, and nothing has changed. -/
theorem bookmarkPost_overflow_dir_sample :
    (bookmarkPost plainPhp .bmdir sampleRequest ⟨some .dir, ['e'], [], [], []⟩ (some deepDirectory)
      fullRoot).1 = .error .errBmdirAddOverflow ∧
    SameTables fullRoot (bookmarkPost plainPhp .bmdir sampleRequest ⟨some .dir, ['e'], [], [], []⟩
      (some deepDirectory) fullRoot).2 :=
  ⟨rfl, (bookmarkPost_overflow_sameTables_iff plainPhp .bmdir sampleRequest
    ⟨some .dir, ['e'], [], [], []⟩ (some deepDirectory) fullRoot .errBmdirAddOverflow rfl
    (.inr rfl)).mpr (.inl rfl)⟩

/-- One bookmark too many is refused, but its link has been counted. -/
theorem bookmarkPost_overflow_counts_link :
    (bookmarkPost plainPhp .bmdir sampleRequest ⟨some .site, ['b'], "http://a".toList, [], []⟩ none
      fullRoot).1 = .error .errBookmarkAddOverflow ∧
    ¬ SameTables fullRoot (bookmarkPost plainPhp .bmdir sampleRequest
      ⟨some .site, ['b'], "http://a".toList, [], []⟩ none fullRoot).2 := by
  refine ⟨by decide +kernel, fun h => ?_⟩
  exact absurd h.link (by decide +kernel)

end Home
