/-
# MipsOnQemu.Lib.TreeReader -- reading a store of directories into a tree

A store names the directories and the items of each directory; a reader builds a list of trees
from it and may leave some of them out. `Complete` says that a list holds everything of the store,
`Lost` that something is left out in a directory the reader comes to. For a reader that reads what
it says (`Reads`) the two are opposite.
-/

import MipsOnQemu.Lib.Forest

namespace TreeReader

open KeyedForest

variable {ν δ ι α : Type}

/-- A store of directories: what a directory has, and which trees of a list show it. -/
structure Store (ν δ ι α : Type) where
  dirs : ν → List (δ × ν)
  items : ν → List ι
  isDir : δ → Rose α → Prop
  isItem : ι → Rose α → Prop

/-- The list holds, at its own level and below, every directory and every item of a directory of the
store; `dir` finds the directories. -/
inductive Complete (S : Store ν δ ι α) : ν → Forest α → Prop
  | mk {n : ν} {list : Forest α} (dir : ∀ d ∈ S.dirs n, Rose α)
      (mem : ∀ d hd, dir d hd ∈ list ∧ S.isDir d.1 (dir d hd))
      (children : ∀ d hd, Complete S d.2 (dir d hd).children)
      (items : ∀ i ∈ S.items n, ∃ t ∈ list, S.isItem i t) : Complete S n list

/-- What a reader takes of a directory. -/
structure Reader (ν δ ι : Type) where
  takesDir : ν → δ → Prop
  takesItem : ν → ι → Prop

/-- **Something is lost** in a directory, or in one below it that the reader comes to. -/
inductive Lost (S : Store ν δ ι α) (R : Reader ν δ ι) : ν → Prop
  | dir {n : ν} {d : δ × ν} : d ∈ S.dirs n → ¬ R.takesDir n d.1 → Lost S R n
  | item {n : ν} {i : ι} : i ∈ S.items n → ¬ R.takesItem n i → Lost S R n
  | inside {n : ν} {d : δ × ν} : d ∈ S.dirs n → R.takesDir n d.1 → Lost S R d.2 → Lost S R n

/-- `read` takes what `R` says and nothing that could be mistaken for something else, in the directories
that are `ok`; `rank` bounds the depth of its calls. -/
structure Reads (S : Store ν δ ι α) (R : Reader ν δ ι) (ok : ν → Prop) (read : ν → Forest α) : Prop where
  rank : ∃ rank : ν → Nat, ∀ n, ∀ d ∈ S.dirs n, R.takesDir n d.1 → rank d.2 < rank n
  ok_below : ∀ n, ok n → ∀ d ∈ S.dirs n, ok d.2
  dir : ∀ n, ∀ d ∈ S.dirs n, R.takesDir n d.1 → ∃ t ∈ read n, S.isDir d.1 t ∧ t.children = read d.2
  item : ∀ n, ∀ i ∈ S.items n, R.takesItem n i → ∃ t ∈ read n, S.isItem i t
  only_dir : ∀ n, ok n → ∀ d ∈ S.dirs n, ∀ t ∈ read n, S.isDir d.1 t → R.takesDir n d.1 ∧ t.children = read d.2
  only_item : ∀ n, ∀ i ∈ S.items n, ∀ t ∈ read n, S.isItem i t → R.takesItem n i

variable {S : Store ν δ ι α} {R : Reader ν δ ι} {ok : ν → Prop} {read : ν → Forest α} {n : ν}

theorem Reads.complete (h : Reads S R ok read) (hlost : ¬ Lost S R n) : Complete S n (read n) := by
  obtain ⟨rank, hrank⟩ := h.rank
  induction hk : rank n using Nat.strongRecOn generalizing n with
  | ind k ih =>
    subst hk
    have htaken : ∀ d ∈ S.dirs n, R.takesDir n d.1 := fun d hd => by_contra fun hnot => hlost (.dir hd hnot)
    have hitem : ∀ i ∈ S.items n, R.takesItem n i := fun i hi => by_contra fun hnot => hlost (.item hi hnot)
    choose dir hmem hshow hchildren using fun d hd => h.dir n d hd (htaken d hd)
    refine .mk dir (fun d hd => ⟨hmem d hd, hshow d hd⟩) (fun d hd => ?_) fun i hi => h.item n i hi (hitem i hi)
    rw [hchildren d hd]
    exact ih _ (hrank n d hd (htaken d hd)) (fun hbelow => hlost (.inside hd (htaken d hd) hbelow)) rfl

/-- What is lost is missing: a tree of the list that shows a directory was read from it. -/
theorem Reads.not_complete (h : Reads S R ok read) (hlost : Lost S R n) (hok : ok n) :
    ¬ Complete S n (read n) := by
  induction hlost with
  | dir hd hnot =>
    rintro ⟨dir, hmem, -, -⟩
    obtain ⟨ht, hshow⟩ := hmem _ hd
    exact hnot (h.only_dir _ hok _ hd _ ht hshow).1
  | item hi hnot =>
    rintro ⟨-, -, -, hitems⟩
    obtain ⟨t, ht, hshow⟩ := hitems _ hi
    exact hnot (h.only_item _ _ hi t ht hshow)
  | inside hd _ _ ih =>
    rintro ⟨dir, hmem, hchildren, -⟩
    obtain ⟨ht, hshow⟩ := hmem _ hd
    have hbelow := hchildren _ hd
    rw [(h.only_dir _ hok _ hd _ ht hshow).2] at hbelow
    exact ih (h.ok_below _ hok _ hd) hbelow

/-- **A read is complete exactly if nothing is lost.** -/
theorem Reads.complete_iff (h : Reads S R ok read) (hok : ok n) : Complete S n (read n) ↔ ¬ Lost S R n :=
  ⟨fun hc hlost => h.not_complete hlost hok hc, h.complete⟩

end TreeReader
