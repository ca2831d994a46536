/-
# MipsOnQemu.Home.StoreCount -- `storenum` counts the bookmarks of a link

A bookmark refers to its URL through the table `link`, and a link of the site catalogue refers on
to `site`. The counter `storenum` stands in `link` for a link of its own and in `site` for a link
of a site. `Counts` says that each counter is the number of bookmarks that reach it. It is stated
for the tables and any list of rows, so that a row can be taken out of the count and put back
while a request is under way: an edit gives its old link back, takes the link of the new URL, and
only then writes the row. A row holds smaller numbers than `link` gives out, so the count stands only
while there are few links.
-/

import MipsOnQemu.Home.Keys
import MipsOnQemu.Home.Refusal

namespace Home

open Option hiding forall_mem_map map_map

open List Database
open MyLaunch (QString Browser)

variable {τ : Type}

/-! ## The counters -/

/-- A bookmark can hold the number of the link of a URL, which is there or will be the next. -/
def LinkRoom (php : Php τ) (url : QString) (db : Database τ) : Prop :=
  knownLink php url db = none → db.nextLinkid ≤ 32767

theorem LinkRoom.addStorenum {php : Php τ} {url : QString} {db : Database τ} (h : LinkRoom php url db) (i : Nat)
    (n : Int) : LinkRoom php url (db.addStorenum i n) := by
  refine fun hnone => h (find?_eq_none.mpr fun l hl hknown => ?_)
  refine find?_eq_none.mp hnone _ (mem_map_of_mem hl) ?_
  split <;> exact hknown

/-- A row of type site that uses a link. -/
def usesLink (linkid : Nat) (r : BookmarkRow) : Bool := r.type = .site ∧ r.linkid = linkid

/-- The link of a row belongs to a site. -/
def usesSite (db : Database τ) (siteid : Nat) (r : BookmarkRow) : Bool :=
  (db.linkOf r.linkid).any fun link => link.siteid = siteid

/-- **The counters of the tables are the numbers of the rows that use them.** -/
structure Counts (rows : List BookmarkRow) (db : Database τ) : Prop where
  linkids : (db.link.map (·.linkid)).Nodup
  fresh : ∀ l ∈ db.link, 0 < l.linkid ∧ l.linkid < db.nextLinkid ∧ l.linkid ≤ 32767
  pos : 0 < db.nextLinkid
  siteids : (db.site.map (·.id)).Nodup
  siteidPos : ∀ s ∈ db.site, 0 < s.id
  sites : ∀ l ∈ db.link, l.siteid ≠ 0 → ∃ s ∈ db.site, s.id = l.siteid
  linked : ∀ r ∈ rows, r.type = .site → ∃ l ∈ db.link, l.linkid = r.linkid
  unlinked : ∀ r ∈ rows, r.type = .dir → r.linkid = 0
  link : ∀ l ∈ db.link, l.siteid = 0 → l.storenum = rows.countP (usesLink l.linkid)
  catalogued : ∀ l ∈ db.link, l.siteid ≠ 0 → l.storenum = 0
  site : ∀ s ∈ db.site, s.storenum = rows.countP (usesSite db s.id)

variable {l : LinkRow} {r : BookmarkRow} {url : QString} {db' : Database τ} {texts : PostTexts}
  {olds : Option BookmarkRow} {p : Posted}

namespace Counts

variable {rows rows' : List BookmarkRow} {db : Database τ}

/-- A bookmark refers to a link of the tables, a directory to none. -/
def Linked (db : Database τ) (r : BookmarkRow) : Prop :=
  (r.type = .site → ∃ l ∈ db.link, l.linkid = r.linkid) ∧ (r.type = .dir → r.linkid = 0)

theorem rowLinked (h : Counts rows db) : ∀ r ∈ rows, Linked db r :=
  fun r hr => ⟨h.linked r hr, h.unlinked r hr⟩

/-- Rows that use the same links and sites as often have the same counters. -/
theorem of_rows (h : Counts rows db) (hlinked : ∀ r ∈ rows', Linked db r)
    (huse : ∀ i, rows'.countP (usesLink i) = rows.countP (usesLink i))
    (hsite : ∀ i, rows'.countP (usesSite db i) = rows.countP (usesSite db i)) : Counts rows' db :=
  { h with
    linked := fun r hr => (hlinked r hr).1
    unlinked := fun r hr => (hlinked r hr).2
    link := fun l hl hs => by rw [huse, h.link l hl hs]
    site := fun s hs => by rw [hsite, h.site s hs] }

theorem linkOf_eq_some_iff (h : Counts rows db) {i : Nat} :
    db.linkOf i = some l ↔ l ∈ db.link ∧ l.linkid = i :=
  find?_key_eq_some_iff h.linkids

theorem linkOf_zero (h : Counts rows db) : db.linkOf 0 = none :=
  linkOf_eq_none fun l hl => (h.fresh l hl).1.ne'

theorem getlink_eq (h : Counts rows db) (i : Nat) : db.getlink i = db.linkOf i := by
  unfold getlink
  split
  · rename_i hzero
    rw [hzero, h.linkOf_zero]
  · rfl

theorem type_of_linkOf (h : Counts (r :: rows) db) (hl : db.linkOf r.linkid = some l) : r.type = .site := by
  cases hr : r.type with
  | site => rfl
  | dir =>
    rw [h.unlinked r mem_cons_self hr, h.linkOf_zero] at hl
    cases hl

theorem perm (h : Counts rows db) (hp : rows'.Perm rows) : Counts rows' db :=
  h.of_rows (fun r hr => h.rowLinked r (hp.mem_iff.mp hr)) (fun _ => hp.countP_eq _)
    fun _ => hp.countP_eq _

theorem usesLink_cons (i : Nat) (r : BookmarkRow) (rows : List BookmarkRow) :
    ((r :: rows).countP (usesLink i) : Int) =
      rows.countP (usesLink i) + if r.type = .site ∧ r.linkid = i then 1 else 0 := by
  rw [countP_cons]
  by_cases hr : r.type = .site ∧ r.linkid = i
  · simp [usesLink, hr]
  · simp [usesLink, hr]

theorem usesSite_dir (h : Counts rows db) (hr : r.linkid = 0) (i : Nat) : usesSite db i r = false := by
  rw [usesSite, hr, h.linkOf_zero]
  rfl

theorem cons_dir (h : Counts rows db) (hr : r.type = .dir) (hlink : r.linkid = 0) : Counts (r :: rows) db :=
  h.of_rows (forall_mem_cons.mpr ⟨by simp [Linked, hr, hlink], h.rowLinked⟩)
    (fun i => countP_cons_of_neg (by simp [usesLink, hr]))
    fun i => countP_cons_of_neg (by simp [h.usesSite_dir hlink])

theorem of_cons_dir (h : Counts (r :: rows) db) (hr : r.type = .dir) : Counts rows db := by
  have hlink := h.unlinked r mem_cons_self hr
  refine h.of_rows (forall_mem_cons.mp h.rowLinked).2 ?_ ?_
  · exact fun i => (countP_cons_of_neg (by simp [usesLink, hr])).symm
  · exact fun i => (countP_cons_of_neg (by simp [h.usesSite_dir hlink])).symm

end Counts

/-! ## Counting a link up or down -/

/-- The counter of a link, moved by `n`: its own, or that of its site. -/
def countLink (l : LinkRow) (n : Int) (db : Database τ) : Database τ :=
  if l.siteid ≠ 0 then db.updatesitestorenum l.siteid n else db.addStorenum l.linkid n

theorem usesSite_addStorenum (db : Database τ) (k : Nat) (n : Int) (i : Nat) (r : BookmarkRow) :
    usesSite (db.addStorenum k n) i r = usesSite db i r := by
  have hlink : (db.addStorenum k n).linkOf r.linkid = (db.linkOf r.linkid).map fun l =>
      if l.linkid = k then { l with storenum := l.storenum + n } else l := by
    rw [linkOf, addStorenum, find?_map, linkOf]
    congr 2
    funext l
    rw [Function.comp_apply]
    split <;> rfl
  rw [usesSite, usesSite, hlink]
  cases db.linkOf r.linkid with
  | none => rfl
  | some l =>
    rw [map_some, any_some, any_some]
    split <;> rfl

namespace Counts

variable {rows rows' : List BookmarkRow} {db : Database τ}

/-- **The counter of a link moves with the number of its users.** -/
theorem countLink (h : Counts rows db) (hl : l ∈ db.link) {n : Int}
    (hlinked : ∀ r ∈ rows', Linked db r) (huse : ∀ i, (rows'.countP (usesLink i) : Int) =
      rows.countP (usesLink i) + if i = l.linkid then n else 0)
    (hsite : ∀ i, (rows'.countP (usesSite db i) : Int) =
      rows.countP (usesSite db i) + if i = l.siteid then n else 0) : Counts rows' (countLink l n db) := by
  unfold Home.countLink
  by_cases hown : l.siteid = 0
  · rw [if_neg (by simp [hown])]
    -- the counter stands in `link`
    have hmem : ∀ x ∈ (db.addStorenum l.linkid n).link, ∃ y ∈ db.link, x.linkid = y.linkid ∧
        x.siteid = y.siteid ∧ x.storenum = y.storenum + if y.linkid = l.linkid then n else 0 := by
      refine forall_mem_map.mpr fun y hy => ⟨y, hy, ?_⟩
      split <;> simp
    have hids : (db.addStorenum l.linkid n).link.map (·.linkid) = db.link.map (·.linkid) := by
      rw [addStorenum, map_map]
      refine map_congr_left fun y _ => ?_
      rw [Function.comp_apply]
      split <;> rfl
    have hlinks : ∀ i, (∃ x ∈ db.link, x.linkid = i) →
        ∃ x ∈ (db.addStorenum l.linkid n).link, x.linkid = i := by
      intro i hx
      have hin : i ∈ db.link.map (·.linkid) := mem_map.mpr hx
      rw [← hids] at hin
      exact mem_map.mp hin
    refine ⟨hids ▸ h.linkids, ?_, h.pos, h.siteids, h.siteidPos, ?_, ?_,
      fun r hr => (hlinked r hr).2, ?_, ?_, ?_⟩
    · intro x hx
      obtain ⟨y, hy, hid, -⟩ := hmem x hx
      rw [hid]
      exact h.fresh y hy
    · intro x hx hs
      obtain ⟨y, hy, -, hid, -⟩ := hmem x hx
      rw [hid] at hs ⊢
      exact h.sites y hy hs
    · intro r hr ht
      exact hlinks _ ((hlinked r hr).1 ht)
    · intro x hx hs
      obtain ⟨y, hy, hid, hsid, hstore⟩ := hmem x hx
      rw [hsid] at hs
      rw [hstore, h.link y hy hs, hid, huse]
    · intro x hx hs
      obtain ⟨y, hy, -, hsid, hstore⟩ := hmem x hx
      rw [hsid] at hs
      have hne : ¬ y.linkid = l.linkid := by
        intro heq
        rw [inj_on_of_nodup_map h.linkids hy hl heq] at hs
        exact hs hown
      rw [hstore, if_neg hne, h.catalogued y hy hs]
      rfl
    · intro s hs
      have hne : ¬ s.id = l.siteid := by
        have := h.siteidPos s hs
        omega
      have hsame : usesSite (db.addStorenum l.linkid n) s.id = usesSite db s.id :=
        funext fun r => usesSite_addStorenum db _ _ _ r
      rw [hsame, hsite, if_neg hne, Int.add_zero]
      exact h.site s hs
  · rw [if_pos hown]
    -- the counter stands in `site`
    have hmem : ∀ x ∈ (db.updatesitestorenum l.siteid n).site, ∃ y ∈ db.site, x.id = y.id ∧
        x.storenum = y.storenum + if y.id = l.siteid then n else 0 := by
      refine forall_mem_map.mpr fun y hy => ⟨y, hy, ?_⟩
      split <;> simp
    have hids : (db.updatesitestorenum l.siteid n).site.map (·.id) = db.site.map (·.id) := by
      rw [updatesitestorenum, map_map]
      refine map_congr_left fun y _ => ?_
      rw [Function.comp_apply]
      split <;> rfl
    refine ⟨h.linkids, h.fresh, h.pos, hids ▸ h.siteids, ?_, ?_, fun r hr => (hlinked r hr).1,
      fun r hr => (hlinked r hr).2, ?_, h.catalogued, ?_⟩
    · intro x hx
      obtain ⟨y, hy, hid, -⟩ := hmem x hx
      rw [hid]
      exact h.siteidPos y hy
    · intro x hx hs
      have hin : x.siteid ∈ db.site.map (·.id) := mem_map.mpr (h.sites x hx hs)
      rw [← hids] at hin
      exact mem_map.mp hin
    · intro x hx hs
      have hne : ¬ x.linkid = l.linkid := by
        intro heq
        rw [inj_on_of_nodup_map h.linkids hx hl heq] at hs
        exact hown hs
      rw [huse, if_neg hne, Int.add_zero]
      exact h.link x hx hs
    · intro s hs
      obtain ⟨y, hy, hid, hstore⟩ := hmem s hs
      have hsame : usesSite (db.updatesitestorenum l.siteid n) s.id = usesSite db s.id := rfl
      rw [hsame, hid, hsite, hstore, h.site y hy]

theorem usesSite_cons (hl : db.linkOf r.linkid = some l) (i : Nat) (rest : List BookmarkRow) :
    ((r :: rest).countP (usesSite db i) : Int) =
      rest.countP (usesSite db i) + if i = l.siteid then 1 else 0 := by
  have huse : usesSite db i r = decide (i = l.siteid) := by
    rw [usesSite, hl, any_some]
    exact decide_eq_decide.mpr eq_comm
  rw [countP_cons, huse]
  by_cases hi : i = l.siteid
  · simp [hi]
  · simp [hi]

theorem take (h : Counts rows db) (hr : r.type = .site) (hl : db.linkOf r.linkid = some l) :
    Counts (r :: rows) (Home.countLink l 1 db) := by
  obtain ⟨hmem, hid⟩ := h.linkOf_eq_some_iff.mp hl
  refine h.countLink hmem (forall_mem_cons.mpr ⟨?_, h.rowLinked⟩) ?_ ?_
  · exact ⟨fun _ => ⟨l, hmem, hid⟩, by simp [hr]⟩
  · intro i
    rw [usesLink_cons]
    congr 1
    simp [hr, ← hid, eq_comm]
  · exact fun i => usesSite_cons hl i rows

theorem giveBack (h : Counts (r :: rows) db) (hl : db.linkOf r.linkid = some l) :
    Counts rows (Home.countLink l (-1) db) := by
  obtain ⟨hmem, hid⟩ := h.linkOf_eq_some_iff.mp hl
  have hr := h.type_of_linkOf hl
  refine h.countLink hmem (forall_mem_cons.mp h.rowLinked).2 ?_ ?_
  · intro i
    have hcons := usesLink_cons i r rows
    have hiff : (r.type = .site ∧ r.linkid = i) ↔ i = l.linkid := by
      simp [hr, ← hid, eq_comm]
    simp only [hiff] at hcons
    rw [hcons]
    split <;> omega
  · intro i
    have hcons := usesSite_cons hl i rows
    rw [hcons]
    split <;> omega

theorem insertLink (h : Counts rows db) (siteid : Nat) (url : QString) (hashurl : Nat) (md5url : QString)
    (hsite : siteid ≠ 0 → ∃ s ∈ db.site, s.id = siteid) (hroom : db.nextLinkid ≤ 32767) :
    Counts rows (db.insertLink ⟨0, siteid, url, hashurl, md5url, 0⟩) := by
  -- the number is new, so no row has it
  have hnew : ∀ r ∈ rows, r.linkid ≠ db.nextLinkid := by
    intro r hr heq
    cases hr' : r.type with
    | site =>
      obtain ⟨l, hl, hid⟩ := h.linked r hr hr'
      have := (h.fresh l hl).2
      omega
    | dir =>
      have := h.unlinked r hr hr'
      have := h.pos
      omega
  have hlinkOf : ∀ r ∈ rows, (db.insertLink ⟨0, siteid, url, hashurl, md5url, 0⟩).linkOf r.linkid =
      db.linkOf r.linkid := by
    intro r hr
    rw [Database.linkOf, Database.insertLink, find?_append,
      find?_cons_of_neg (by simpa using (hnew r hr).symm), find?_nil, or_none]
    rfl
  refine ⟨?_, ?_, Nat.succ_pos _, h.siteids, h.siteidPos, ?_, ?_, h.unlinked, ?_, ?_, ?_⟩
  · exact nodup_key_append h.linkids fun l hl => (h.fresh l hl).2.1
  · refine forall_mem_append.mpr ⟨fun l hl => ?_, forall_mem_singleton.mpr ⟨h.pos, Nat.lt_succ_self _, hroom⟩⟩
    exact (h.fresh l hl).imp_right (And.imp_left Nat.lt_succ_of_lt)
  · exact forall_mem_append.mpr ⟨h.sites, forall_mem_singleton.mpr hsite⟩
  · intro r hr hsite
    obtain ⟨l, hl, hid⟩ := h.linked r hr hsite
    exact ⟨l, mem_append_left _ hl, hid⟩
  · have hzero : rows.countP (usesLink db.nextLinkid) = 0 := by
      rw [countP_eq_zero]
      intro r hr huse
      exact hnew r hr (of_decide_eq_true huse).2
    refine forall_mem_append.mpr ⟨h.link, forall_mem_singleton.mpr fun _ => ?_⟩
    rw [hzero]
    rfl
  · exact forall_mem_append.mpr ⟨h.catalogued, forall_mem_singleton.mpr fun _ => rfl⟩
  · intro s hs
    rw [h.site s hs]
    congr 1
    refine countP_congr fun r hr => ?_
    rw [usesSite, usesSite, hlinkOf r hr]

theorem insertLink_addStorenum (h : Counts rows db) {md5url : QString} {hashurl : Nat} :
    (db.insertLink ⟨0, 0, url, hashurl, md5url, 0⟩).addStorenum db.nextLinkid 1 =
      db.insertLink ⟨0, 0, url, hashurl, md5url, 1⟩ := by
  have hlink : (db.link ++ [(⟨db.nextLinkid, 0, url, hashurl, md5url, 0⟩ : LinkRow)]).map (fun r : LinkRow =>
      if r.linkid = db.nextLinkid then { r with storenum := r.storenum + 1 } else r) =
        db.link ++ [⟨db.nextLinkid, 0, url, hashurl, md5url, 1⟩] := by
    rw [map_append]
    refine congrArg₂ _ ?_ ?_
    · refine (map_congr_left fun l hl => ?_).trans (map_id _)
      have := (h.fresh l hl).2
      rw [if_neg (by omega), id]
    · simp
  unfold Database.addStorenum Database.insertLink
  rw [hlink]

theorem take_new (h : Counts rows db) (hr : r.type = .site) (hid : r.linkid = db.nextLinkid)
    (siteid : Nat) (url : QString) (hashurl : Nat) (md5url : QString)
    (hsite : siteid ≠ 0 → ∃ s ∈ db.site, s.id = siteid) (hroom : db.nextLinkid ≤ 32767) :
    Counts (r :: rows) (Home.countLink ⟨db.nextLinkid, siteid, url, hashurl, md5url, 0⟩ 1
      (db.insertLink ⟨0, siteid, url, hashurl, md5url, 0⟩)) := by
  refine (h.insertLink siteid url hashurl md5url hsite hroom).take hr ?_
  have hnone : db.linkOf db.nextLinkid = none := linkOf_eq_none fun l hl => (h.fresh l hl).2.1.ne
  rw [linkOf] at hnone ⊢
  rw [hid, Database.insertLink, find?_append, hnone]
  simp

/-- **Taking the link of a URL** counts one bookmark more. -/
theorem acquireLink (h : Counts rows db) {php : Php τ} (hroom : LinkRoom php url db) (r : BookmarkRow)
    (hr : r.type = .site) (hlink : r.linkid = (Home.acquireLink php url db).1) :
    Counts (r :: rows) (Home.acquireLink php url db).2 := by
  cases hknown : knownLink php url db with
  | some l =>
    have hacquire : Home.acquireLink php url db = (l.linkid, Home.countLink l 1 db) := by
      simp only [Home.acquireLink, hknown, Home.countLink]
      split <;> rfl
    rw [hacquire] at hlink ⊢
    exact h.take hr (h.linkOf_eq_some_iff.mpr ⟨mem_of_find?_eq_some hknown, hlink.symm⟩)
  | none =>
    rw [Home.acquireLink, hknown] at hlink ⊢
    dsimp only at hlink ⊢
    have hid : r.linkid = db.nextLinkid := by
      split at hlink
      · split at hlink <;> exact hlink
      · exact hlink
    -- the plain insertion, which two branches make
    have hplain : Counts (r :: rows)
        (db.insertLink ⟨0, 0, stripslashes url, php.qhash url, php.md5 url, 1⟩) := by
      rw [← h.insertLink_addStorenum]
      exact h.take_new hr hid 0 _ _ _ (fun hne => absurd rfl hne) (hroom hknown)
    split
    · next site hfound =>
      split
      · next hsid =>
        have htake := h.take_new hr hid site.id [] (php.qhash url) (php.md5 url)
          (fun _ => ⟨site, mem_of_find?_eq_some hfound, rfl⟩) (hroom hknown)
        rw [Home.countLink, if_pos hsid] at htake
        exact htake
      · exact hplain
    · exact hplain

theorem acquireLink_le (h : Counts rows db) {php : Php τ} (hroom : LinkRoom php url db) :
    (Home.acquireLink php url db).1 ≤ 32767 := by
  unfold Home.acquireLink
  split
  · next l hknown =>
    have hle := (h.fresh l (mem_of_find?_eq_some hknown)).2.2
    split <;> exact hle
  · next hknown =>
    have hle := hroom hknown
    split
    · split <;> exact hle
    · exact hle

/-- **The first half of an edit**: the old link is given back, or stands. -/
theorem releaseLink {php : Php τ} (h : Counts (r :: rows) db) {res : Option Nat}
    (hres : Home.releaseLink php r.linkid url db = some (res, db')) :
    (res = none ∧ Counts rows db' ∧ (LinkRoom php url db → LinkRoom php url db')) ∨
      (res = some r.linkid ∧ db' = db ∧ r.type = .site) := by
  rw [Home.releaseLink, h.getlink_eq] at hres
  cases hlink : db.linkOf r.linkid with
  | none =>
    simp only [hlink] at hres
    cases hres
    refine .inl ⟨rfl, ?_, id⟩
    -- only a directory is without a link
    cases hr : r.type with
    | dir => exact h.of_cons_dir hr
    | site =>
      obtain ⟨l, hl⟩ := h.linked r mem_cons_self hr
      rw [h.linkOf_eq_some_iff.mpr hl] at hlink
      cases hlink
  | some l =>
    obtain ⟨hmem, hid⟩ := h.linkOf_eq_some_iff.mp hlink
    have hr := h.type_of_linkOf hlink
    have hback := h.giveBack hlink
    unfold Home.countLink at hback
    simp only [hlink] at hres
    split at hres
    · next hown =>
      rw [if_neg (by simp [hown])] at hback
      split at hres
      · cases hres
        exact .inr ⟨by rw [hid], rfl, hr⟩
      · cases hres
        exact .inl ⟨rfl, hback, fun h => h.addStorenum _ _⟩
    · next hsite =>
      rw [if_pos hsite] at hback
      obtain ⟨site, hs, hsid⟩ := h.sites l hmem hsite
      have hsome : (db.siteOf l.siteid).isSome :=
        find?_isSome.mpr ⟨site, hs, decide_eq_true hsid⟩
      obtain ⟨s, hs⟩ := isSome_iff_exists.mp hsome
      have hsid : s.id = l.siteid := by simpa using find?_some hs
      simp only [hs] at hres
      split at hres
      · cases hres
        exact .inr ⟨rfl, rfl, hr⟩
      · cases hres
        rw [hsid]
        exact .inl ⟨rfl, hback, id⟩

theorem cons_congr {r' : BookmarkRow} (h : Counts (r :: rows) db) (htype : r'.type = r.type)
    (hlink : r'.linkid = r.linkid) : Counts (r' :: rows) db := by
  obtain ⟨hrow, hrows⟩ := forall_mem_cons.mp h.rowLinked
  refine h.of_rows (forall_mem_cons.mpr ⟨?_, hrows⟩) ?_ ?_
  · rwa [Linked, htype, hlink]
  · exact fun i => by simp [countP_cons, usesLink, htype, hlink]
  · intro i
    have hsame : usesSite db i r' = usesSite db i r := by simp [usesSite, hlink]
    rw [countP_cons, countP_cons, hsame]

/-- **`bookmark_link_process`** moves the count of an edited bookmark to the link of its URL. -/
theorem bookmarkLinkProcess {php : Php τ} (h : Counts (r :: rows) db) {linkid : Nat}
    (hroom : LinkRoom php url db) (hres : Home.bookmarkLinkProcess php r.linkid url db = some (linkid, db'))
    (r' : BookmarkRow) (htype : r'.type = .site) (hlink : r'.linkid = smallint linkid) : Counts (r' :: rows) db' := by
  unfold Home.bookmarkLinkProcess at hres
  cases hrel : Home.releaseLink php r.linkid url db with
  | none =>
    simp only [hrel] at hres
    cases hres
  | some res =>
    obtain ⟨res, db₁⟩ := res
    rcases h.releaseLink hrel with ⟨rfl, hcounts, hkept⟩ | ⟨rfl, rfl, hr⟩
    · simp only [hrel] at hres
      have hacq := some.inj hres
      have hle := hcounts.acquireLink_le (hkept hroom)
      rw [hacq] at hle
      have hnew := hcounts.acquireLink (hkept hroom) r' htype (by rw [hlink, hacq, smallint_eq hle])
      rw [hacq] at hnew
      exact hnew
    · simp only [hrel] at hres
      cases hres
      obtain ⟨l, hl, hid⟩ := h.linked r mem_cons_self hr
      have hle : r.linkid ≤ 32767 := hid ▸ (h.fresh l hl).2.2
      exact h.cons_congr (htype.trans hr.symm) (hlink.trans (smallint_eq hle))

theorem map (h : Counts rows db) {f : BookmarkRow → BookmarkRow}
    (hf : ∀ r, (f r).type = r.type ∧ (f r).linkid = r.linkid) : Counts (rows.map f) db := by
  refine h.of_rows (forall_mem_map.mpr fun r hr => ?_) ?_ ?_
  · rw [Linked, (hf r).1, (hf r).2]
    exact h.rowLinked r hr
  · exact fun i => countP_map.trans (countP_congr fun r _ => by simp [usesLink, hf r])
  · exact fun i => countP_map.trans (countP_congr fun r _ => by simp [usesSite, hf r])

theorem of_tables (h : Counts rows db) (hlink : db'.link = db.link) (hsite : db'.site = db.site)
    (hnext : db'.nextLinkid = db.nextLinkid) : Counts rows db' := by
  have hlinkOf : ∀ i, db'.linkOf i = db.linkOf i := fun i => by
    rw [linkOf, hlink, linkOf]
  have huse : ∀ i, usesSite db' i = usesSite db i := fun i => funext fun r => by
    rw [usesSite, hlinkOf, usesSite]
  refine ⟨hlink ▸ h.linkids, hlink ▸ hnext ▸ h.fresh, hnext ▸ h.pos, hsite ▸ h.siteids,
    hsite ▸ h.siteidPos, hlink ▸ hsite ▸ h.sites, hlink ▸ h.linked, h.unlinked, hlink ▸ h.link,
    hlink ▸ h.catalogued, ?_⟩
  intro s hs
  rw [hsite] at hs
  rw [huse]
  exact h.site s hs

end Counts

/-! ## Requests -/

/-- What holds of the tables after every run. -/
structure StoreInv (db : Database τ) : Prop where
  keyed : Keyed db
  counts : Counts db.bookmark db
  levels : ∀ r ∈ db.bookmark, 0 < r.level

namespace StoreInv

variable {db : Database τ} {php : Php τ} {rq : Request}

theorem insert (h : StoreInv db) (db₁ : Database τ) (row : BookmarkRow)
    (hcounts : Counts ({ row with bmid := db.nextBmid } :: db.bookmark) db₁)
    (hrows : db'.bookmark = db.bookmark ++ [{ row with bmid := db.nextBmid }])
    (hnext : db'.nextBmid = db.nextBmid + 1) (hlevel : 0 < row.level) (hlink : db'.link = db₁.link)
    (hsite : db'.site = db₁.site) (hlinkid : db'.nextLinkid = db₁.nextLinkid) : StoreInv db' := by
  refine ⟨h.keyed.insert hrows hnext, ?_, ?_⟩
  · rw [hrows]
    exact (hcounts.perm (perm_append_singleton _ _)).of_tables hlink hsite hlinkid
  · rw [hrows]
    exact forall_mem_append.mpr ⟨h.levels, forall_mem_singleton.mpr hlevel⟩

theorem newRow_level_pos (rq : Request) (olds : Option BookmarkRow) (type : BookmarkType) (subject : QString) :
    0 < (newRow rq olds type subject).level := by
  cases olds with
  | none => exact Nat.one_pos
  | some r => exact Nat.succ_pos _

theorem addBookmark (h : StoreInv db) (hroom : LinkRoom php texts.address db)
    (hres : addBookmark php rq texts olds db = (.ok p, db')) :
    StoreInv db' := by
  have hlinks := onlyLinks_acquireLink php texts.address db
  simp only [Home.addBookmark, bookmarkLinkProcess_zero] at hres
  split at hres
  · cases hres
  · cases hres
    refine h.insert (acquireLink php texts.address db).2
      { newRow rq olds .site texts.subject with linkid := smallint (acquireLink php texts.address db).1 }
      ?_ (hlinks.insertBookmark _) (congrArg (· + 1) hlinks.nextBmid)
      (newRow_level_pos rq olds .site texts.subject) rfl rfl rfl
    exact h.counts.acquireLink hroom _ rfl (smallint_eq (h.counts.acquireLink_le hroom))

theorem addBmdir (h : StoreInv db) (hres : addBmdir rq texts olds db = (.ok p, db')) : StoreInv db' := by
  simp only [Home.addBmdir] at hres
  split at hres
  · cases hres
  · cases hres
    exact h.insert db
      { newRow rq olds .dir texts.subject with groupid := db.getMaxGroupid rq.uid + 1 }
      (h.counts.cons_dir rfl rfl) rfl rfl (newRow_level_pos rq olds .dir texts.subject) rfl rfl rfl

theorem editBmdir (h : StoreInv db) {post : Post} (hres : editBmdir php rq post olds db = (.ok p, db')) :
    StoreInv db' := by
  simp only [Home.editBmdir] at hres
  split at hres
  · cases hres
  · split at hres
    · cases hres
    · cases hres
      refine ⟨h.keyed.update (fun r => by split <;> rfl) rfl rfl, ?_, ?_⟩
      · exact (h.counts.map fun r => by split <;> exact ⟨rfl, rfl⟩).of_tables rfl rfl rfl
      · refine forall_mem_map.mpr fun x hx => ?_
        have := h.levels x hx
        split <;> exact this

theorem editBookmark (h : StoreInv db) (hroom : LinkRoom php texts.address db) {item : BookmarkRow} (hitem : item ∈ db.bookmark)
    (hres : editBookmark php rq texts (some item) db = (.ok p, db')) : StoreInv db' := by
  simp only [Home.editBookmark, elim_some] at hres
  split at hres
  · cases hres
  · next linkid db₁ hprocess =>
    cases hres
    have hlinks := onlyLinks_bookmarkLinkProcess hprocess
    have hcounts := h.counts.perm (h.keyed.perm_cons_filter hitem).symm
    -- the edited row in the place of the old one
    have hperm := h.keyed.perm_map_update hitem (editedRow rq (some item) texts.subject linkid)
    have hrows : (db₁.updateBookmark (fun r => r.bmid = item.bmid)
        (editedRow rq (some item) texts.subject linkid)).bookmark = db.bookmark.map fun r =>
          if r.bmid = item.bmid then editedRow rq (some item) texts.subject linkid r else r := by
      simp [updateBookmark_bookmark, hlinks.bookmark]
    refine ⟨h.keyed.update ?_ hrows hlinks.nextBmid, ?_, ?_⟩
    · intro r
      split <;> rfl
    · have hnew := (hcounts.bookmarkLinkProcess hroom hprocess
        (editedRow rq (some item) texts.subject linkid item) rfl rfl).perm hperm
      rw [← hrows] at hnew
      exact hnew.of_tables rfl rfl rfl
    · show ∀ r ∈ (db₁.updateBookmark (fun r => r.bmid = item.bmid)
        (editedRow rq (some item) texts.subject linkid)).bookmark, 0 < r.level
      rw [hrows, forall_mem_map]
      intro x hx
      have := h.levels x hx
      split <;> exact this

theorem removal (php : Php τ) (rq : Request) (rows₀ : List BookmarkRow) :
    Removal php rq rows₀ (fun db : Database τ => StoreInv db) where
  bookmark := by
    intro db row link hkey h hrow _ hlink
    obtain ⟨hmem, -⟩ := hkey.row_eq_some_iff.mp hrow
    have hback := (h.counts.perm (hkey.perm_cons_filter hmem).symm).giveBack hlink
    have hsub : (withoutBookmark php rq row.bmid link db).bookmark.Sublist db.bookmark := by
      rw [withoutBookmark_bookmark]
      exact filter_sublist
    refine ⟨hkey.of_sublist hsub (withoutBookmark_nextBmid ..), ?_,
      fun r hr => h.levels r (hsub.subset hr)⟩
    rw [withoutBookmark_bookmark]
    refine hback.of_tables ?_ ?_ ?_ <;>
    · unfold withoutBookmark countLink
      split <;> rfl
  bmdir := by
    intro db dir hkey h hsame htype _ _ _
    have hsub : (withoutBmdir rq dir.bmid db).bookmark.Sublist db.bookmark := filter_sublist
    refine ⟨hkey.of_sublist hsub rfl, ?_, fun r hr => h.levels r (hsub.subset hr)⟩
    have hrest : Counts (db.bookmark.filter fun r => r.bmid ≠ dir.bmid) db := by
      by_cases hmem : dir ∈ db.bookmark
      · exact (h.counts.perm (hkey.perm_cons_filter hmem).symm).of_cons_dir htype
      · -- the directory is not there: nothing is filtered out
        have hall : (db.bookmark.filter fun r => r.bmid ≠ dir.bmid) = db.bookmark := by
          refine filter_eq_self.mpr fun r hr => decide_eq_true fun heq => ?_
          exact hmem (hsame r hr heq ▸ hr)
        rw [hall]
        exact h.counts
    exact hrest.of_tables rfl rfl rfl

theorem deletebookmark (h : StoreInv db) {item : BookmarkRow} {bmid : Nat}
    (hrow : db.row bmid = some item) (huid : item.uid = rq.uid) :
    StoreInv (deletebookmark php rq bmid db).2 := by
  obtain ⟨hitem, rfl⟩ := h.keyed.row_eq_some_iff.mp hrow
  exact ((removal php rq db.bookmark).deletebookmark h.keyed h
    (fun _ hr heq => h.keyed.eq_of_bmid hr hitem heq) huid fun _ => h.levels item hitem).1

theorem bookmarkPost (h : StoreInv db) {ac : Ac} {post : Post} (holds : ∀ r, olds = some r → r ∈ db.bookmark)
    (hroom : post.category = some .site → ∀ texts, postTexts php rq post = some texts → LinkRoom php texts.address db)
    (hres : bookmarkPost php ac rq post olds db = (.ok p, db')) :
    StoreInv db' := by
  unfold Home.bookmarkPost at hres
  cases hcat : post.category with
  | none =>
    simp only [hcat] at hres
    exact h.editBmdir hres
  | some category =>
    simp only [hcat] at hres
    split at hres
    · cases hres
    · next texts htexts =>
      cases category with
      | dir => exact h.addBmdir hres
      | site =>
        have hroom := hroom hcat texts htexts
        cases ac with
        | bmdir => exact h.addBookmark hroom hres
        | bookmark =>
          cases olds with
          | some item => exact h.editBookmark hroom (holds item rfl) hres
          | none =>
            simp only [postCategory, Home.editBookmark] at hres
            split at hres <;> cases hres

end StoreInv

/-! ## Runs -/

/-- A request that posts a bookmark finds room in the columns: a bookmark can hold the number of the link
of its URL, and the bookmarks made so far are fewer than a counter of `link` can count. -/
def Action.Fits (php : Php τ) (rq : Request) (db : Database τ) : Action → Prop
  | .bmdir _ submit _ post | .bookmark _ submit _ post => submit ≠ .deletesubmit → post.category = some .site →
      (∀ texts, postTexts php rq post = some texts → LinkRoom php texts.address db) ∧ db.nextBmid < 2 ^ 23
  | .clear => True

/-- **One successful request keeps the counters.** -/
theorem StoreInv.execute {db : Database τ} (h : StoreInv db) (php : Php τ) (rq : Request)
    (a : Action) (hfits : a.Fits php rq db) (hsuccess : (execute php rq db a).1.Success) :
    StoreInv (execute php rq db a).2 := by
  cases a with
  | clear =>
    show StoreInv (answerDelete _).2
    rw [answerDelete_snd]
    exact ((removal php rq db.bookmark).clearbookmark h.keyed h
      fun r hr => h.levels r (mem_children.mp hr).1).1
  | bmdir op submit bmdirid post =>
    show StoreInv (cpBmdir php rq op submit bmdirid post db).2
    replace hsuccess : (cpBmdir php rq op submit bmdirid post db).1.Success := hsuccess
    rcases cpBmdir_cases php rq op submit bmdirid post db with
      ⟨a, hres, -⟩ | ⟨item, hitem, ⟨hpost, hres⟩ | ⟨dir, rfl, hres⟩⟩
    · rw [hres]
      exact h
    · have hfits := fun hcat => (hfits hpost hcat).1
      rw [hres] at hsuccess ⊢
      obtain ⟨p, db', hpost, hdb⟩ := answerPost_success hsuccess
      rw [hdb]
      refine h.bookmarkPost ?_ hfits hpost
      rintro r rfl
      exact (mem_of_bmdiritem hitem).1
    · rw [hres, answerDelete_snd]
      obtain ⟨hdir, huid, htype, -⟩ := mem_of_bmdiritem hitem
      exact ((removal php rq db.bookmark).deletebookmarkdir h.keyed h hdir htype huid
        (h.levels dir hdir)).1
  | bookmark op submit bmid post =>
    show StoreInv (cpBookmark php rq op submit bmid post db).2
    replace hsuccess : (cpBookmark php rq op submit bmid post db).1.Success := hsuccess
    rcases cpBookmark_cases php rq op submit bmid post db with
      ⟨a, hres, -⟩ | ⟨item, hrow, huid, ⟨hedit, hres⟩ | ⟨hadd, hres⟩ | hres⟩
    · rw [hres]
      exact h
    · have hfits := fun hcat => (hfits (by rw [hedit]; exact Submit.noConfusion) hcat).1
      rw [hres] at hsuccess ⊢
      obtain ⟨p, db', hpost, hdb⟩ := answerPost_success hsuccess
      rw [hdb]
      refine h.bookmarkPost ?_ hfits hpost
      rintro r hr
      cases hr
      exact mem_of_find?_eq_some hrow
    · have hfits := fun hcat => (hfits (by rw [hadd]; exact Submit.noConfusion) hcat).1
      rw [hres] at hsuccess ⊢
      obtain ⟨p, db', hpost, hdb⟩ := answerPost_success hsuccess
      rw [hdb]
      exact h.bookmarkPost (fun r hr => by cases hr) hfits hpost
    · rw [hres, answerDelete_snd]
      exact h.deletebookmark hrow huid

/-- The databases reached from `db₀` by successful requests of any users that find room. -/
inductive StoreRun (php : Php τ) (db₀ : Database τ) : Database τ → Prop
  | start : StoreRun php db₀ db₀
  | request {db : Database τ} (rq : Request) (a : Action) : StoreRun php db₀ db → a.Fits php rq db →
      (execute php rq db a).1.Success → StoreRun php db₀ (execute php rq db a).2

/-- No bookmarks and no links, and a site catalogue that nobody has used. -/
structure Unused (db : Database τ) : Prop where
  bookmark : db.bookmark = []
  link : db.link = []
  site : ∀ s ∈ db.site, s.storenum = 0
  siteids : (db.site.map (·.id)).Nodup ∧ ∀ s ∈ db.site, 0 < s.id
  ids : 0 < db.nextBmid ∧ 0 < db.nextLinkid

theorem Unused.storeInv {db : Database τ} (h : Unused db) : StoreInv db := by
  refine ⟨⟨?_, ?_, h.ids.1⟩, ⟨?_, ?_, h.ids.2, h.siteids.1, h.siteids.2, ?_, ?_, ?_, ?_, ?_, ?_⟩, ?_⟩
  all_goals first
    | simp [h.bookmark, h.link]; done
    | intro s hs; simp [h.bookmark, h.site s hs]

/-- **Store counts are reference counts.** After every run of successful additions, edits and
deletions by any users, the counter of a link of its own is the number of bookmarks that have it,
and the counter of a site is the number of bookmarks whose link belongs to it. -/
theorem storenum_eq_references (php : Php τ) (db₀ db : Database τ) (hstart : Unused db₀)
    (hrun : StoreRun php db₀ db) : (∀ l ∈ db.link, l.siteid = 0 →
      l.storenum = db.bookmark.countP fun r => r.type = .site ∧ r.linkid = l.linkid) ∧
    (∀ s ∈ db.site, s.storenum =
      db.bookmark.countP fun r => (db.linkOf r.linkid).any fun l => l.siteid = s.id) ∧
    (∀ l ∈ db.link, 0 ≤ l.storenum) ∧ ∀ s ∈ db.site, 0 ≤ s.storenum := by
  have hinv : StoreInv db := by
    induction hrun with
    | start => exact hstart.storeInv
    | request rq a _ hfits hsuccess ih => exact ih.execute php rq a hfits hsuccess
  refine ⟨hinv.counts.link, hinv.counts.site, ?_, ?_⟩
  · intro l hl
    by_cases hs : l.siteid = 0
    · rw [hinv.counts.link l hl hs]
      exact Int.natCast_nonneg _
    · rw [hinv.counts.catalogued l hl hs]
  · intro s hs
    rw [hinv.counts.site s hs]
    exact Int.natCast_nonneg _

def sampleAddition : Action :=
  .bmdir .add .addsubmit 0 ⟨some .site, ['n'], "http://a".toList, [], []⟩

/-- After one addition there is one link, and it is counted once. -/
theorem storenum_eq_references_sample :
    (execute plainPhp sampleRequest { tags := () } sampleAddition).2.link.map (·.storenum) = [1] ∧
      ∀ l ∈ (execute plainPhp sampleRequest { tags := () } sampleAddition).2.link, 0 ≤ l.storenum :=
  ⟨by decide +kernel, (storenum_eq_references plainPhp { tags := () } _
    ⟨rfl, rfl, nofun, ⟨nodup_nil, fun _ h =>
      absurd h not_mem_nil⟩, by decide⟩
    (.request sampleRequest sampleAddition .start (fun _ _ => ⟨fun _ _ _ => by decide, by decide⟩)
      (by decide +kernel))).2.2.1⟩

/-! ## More links than a bookmark can tell apart -/

/-- The URL of user `n`: one character. -/
def crowdUrl (n : Nat) : QString := [Char.ofNat (0x4E00 + n)]

def crowdRequest (n : Nat) : Request := { sampleRequest with uid := n }

/-- User `n` adds a bookmark. -/
def crowdStep (n : Nat) (db : Database Unit) : Answer × Database Unit :=
  execute plainPhp (crowdRequest n) db (.bmdir .add .addsubmit 0 ⟨some .site, [], crowdUrl n, [], []⟩)

/-- The tables after the users before `n` have added a bookmark each. -/
def crowd : Nat → Database Unit
  | 0 => { tags := () }
  | n + 1 => (crowdStep n (crowd n)).2

theorem toNat_crowdUrl {n : Nat} (hn : n < 32768) : (Char.ofNat (0x4E00 + n)).toNat = 0x4E00 + n := by
  rw [Char.ofNat, dif_pos (.inl (by omega))]
  exact Char.toNat_ofNatAux _

theorem postTexts_crowd {n : Nat} (hn : n < 32768) :
    postTexts plainPhp (crowdRequest n) ⟨some .site, [], crowdUrl n, [], []⟩ =
      some ⟨"2010-06-04".toList, crowdUrl n, []⟩ := by
  have hne : ∀ d : Char, d.toNat < 0x4E00 → Char.ofNat (0x4E00 + n) ≠ d := by
    rintro d hd rfl
    rw [toNat_crowdUrl hn] at hd
    omega
  rw [crowdUrl]
  generalize Char.ofNat (0x4E00 + n) = c at hne
  have hslash : slashedChar c = [c] := by simp [slashedChar, hne, apostrophe, quotation, backslash, nul]
  have hstrip : stripslashes [c] = [c] := if_neg (hne _ (by decide))
  have htext : shtmlspecialchars [c] = [c] := by
    simp [shtmlspecialchars, replaceAll, replaceWhen, replaceFrom, amp, quotation, Ne.symm (hne _ _)]
  have hempty : shtmlspecialchars [] = [] := rfl
  simp [postTexts, getstr, crowdRequest, sampleRequest, plainPhp, browser, mbSubstr, addslashes, trim, handleUrlString,
    MyLaunch.dropTrailing, isTrimmed, nul, hne, htext, hstrip, hslash, hempty, stripslashes]

/-- Each of the users before `n` has a URL and a bookmark. -/
structure Crowded (n : Nat) (db : Database Unit) : Prop where
  site : db.site = []
  next : db.nextLinkid = n + 1
  urls : ∀ l ∈ db.link, ∃ i < n, l.md5url = crowdUrl i
  rows : ∀ r ∈ db.bookmark, r.uid < n ∧ r.linkid ≤ 32767

theorem crowdStep_eq {n : Nat} (hn : n < 32768) (db : Database Unit) : crowdStep n db = answerPost
    (addBookmark plainPhp (crowdRequest n) ⟨"2010-06-04".toList, crowdUrl n, []⟩ none db) := by
  show answerPost (bookmarkPost _ _ _ _ none db) = _
  rw [bookmarkPost_own rfl rfl, postTexts_crowd hn]
  rfl

/-- The URL is new, so that a link is made for it. -/
theorem Crowded.acquireLink {n : Nat} {db : Database Unit} (h : Crowded n db) (hn : n < 32768) :
    Home.acquireLink plainPhp (crowdUrl n) db = (n + 1, db.insertLink
      ⟨0, 0, stripslashes (crowdUrl n), plainPhp.qhash (crowdUrl n), crowdUrl n, 1⟩) := by
  have hknown : knownLink plainPhp (crowdUrl n) db = none := by
    refine find?_eq_none.mpr fun l hl hmd5 => ?_
    obtain ⟨i, hi, hurl⟩ := h.urls l hl
    have heq := congrArg Char.toNat (cons.inj (hurl.symm.trans (of_decide_eq_true hmd5).2)).1
    rw [toNat_crowdUrl (hi.trans hn), toNat_crowdUrl hn] at heq
    omega
  rw [Home.acquireLink, hknown, h.site, h.next]
  rfl

theorem Crowded.step {n : Nat} {db : Database Unit} (h : Crowded n db) (hn : n < 32768) :
    (crowdStep n db).1.Success ∧ Crowded (n + 1) (crowdStep n db).2 ∧
      ∃ l ∈ (crowdStep n db).2.link, l.linkid = n + 1 ∧ l.siteid = 0 ∧ l.storenum = 1 := by
  have hroom : db.children n .ie 0 = [] := filter_eq_nil_iff.mpr fun r hr heq =>
    (h.rows r hr).1.ne (of_decide_eq_true heq).1
  rw [crowdStep_eq hn, addBookmark, bookmarkLinkProcess_zero, h.acquireLink hn]
  dsimp only
  split
  · -- the root of the user is empty
    next hfull =>
    replace hfull : 128 ≤ (db.children n .ie 0).length := hfull
    rw [hroom] at hfull
    cases hfull
  · refine ⟨trivial, ⟨h.site, congrArg (· + 1) h.next, ?_, ?_⟩, _, mem_append_right _ mem_cons_self,
      h.next, rfl, rfl⟩
    · refine forall_mem_append.mpr ⟨fun l hl => ?_, forall_mem_singleton.mpr ⟨n, n.lt_succ_self, rfl⟩⟩
      obtain ⟨i, hi, hurl⟩ := h.urls l hl
      exact ⟨i, Nat.lt_succ_of_lt hi, hurl⟩
    · refine forall_mem_append.mpr ⟨fun r hr => ?_, forall_mem_singleton.mpr
        ⟨n.lt_succ_self, Nat.min_le_right _ _⟩⟩
      exact (h.rows r hr).imp_left Nat.lt_succ_of_lt

theorem crowded_crowd : ∀ n ≤ 32768, Crowded n (crowd n)
  | 0, _ => ⟨rfl, rfl, nofun, nofun⟩
  | n + 1, hn => ((crowded_crowd n (Nat.le_of_succ_le hn)).step hn).2.1

/-- **The last of 32768 users has a bookmark of somebody else's link**: its own link is counted and no row
has it. -/
theorem crowd_link_lost : (∀ n < 32768, (crowdStep n (crowd n)).1.Success) ∧
    ∃ l ∈ (crowd 32768).link, l.siteid = 0 ∧ l.storenum = 1 ∧
      ((crowd 32768).bookmark.countP fun r => r.type = .site ∧ r.linkid = l.linkid) = 0 := by
  refine ⟨fun n hn => ((crowded_crowd n hn.le).step hn).1, ?_⟩
  obtain ⟨n, hn⟩ : ∃ n, n + 1 = 32768 := ⟨32767, rfl⟩
  rw [← hn]
  obtain ⟨-, hend, l, hl, hid, hsite, hcount⟩ := (crowded_crowd n (by omega)).step (by omega)
  refine ⟨l, hl, hsite, hcount, countP_eq_zero.mpr fun r hr huse => ?_⟩
  have hrow := (hend.rows r hr).2
  have heq := (of_decide_eq_true huse).2
  omega

end Home
