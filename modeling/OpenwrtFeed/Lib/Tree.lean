import Mathlib.Data.Finset.Image
import Mathlib.Data.List.Lex
import Mathlib.Data.List.Sort
import Mathlib.Data.List.Infix
import Mathlib.Data.Finset.Basic

/-!
# Finite directory trees

A `Tree ν γ` is what a file system looks like to a script: paths are lists of names, and at a path
there is nothing, a directory, or a file with some content.  Two things are built into the type, so
that nothing downstream has to carry them along: only finitely many paths exist (`dom`), and
whatever exists lies in a directory (`parent_dir`).

The tree itself is the function `get`; `dom` is there because a script enumerates — a glob, `find`,
`os.listdir` — and a function cannot be enumerated.  It is determined by `get`, so two trees are
equal as soon as they answer every lookup alike (`Tree.ext_get`), and that is how every equation
between trees below is proved.

The operations are the ones shell scripts are made of:

* `rm p` — `rm -rf p`;
* `mkdirs p` — `mkdir -p p`, which fails when a file is in the way;
* `write p c` — `> p`, which fails on a directory and without a parent directory;
* `graft p s` — `cp -a s/. p/` into a directory that has just been emptied;
* `takeFrom old p` — put back what `old` had at and below `p`.

Each has one lemma saying what every lookup gives afterwards, and nothing else is ever needed about
it.  `children` is the sorted listing of a directory.
-/

set_option autoImplicit false

namespace DirTree

/-! ## Sorting a finite set so that it can be computed with -/

section Sorting

variable {ν : Type*} [LinearOrder ν]

/-- The elements of a finite set in increasing order.  Like `Finset.sort`, but by insertion sort,
which the kernel can run. -/
def sorted (s : Finset ν) : List ν :=
  Quot.liftOn s.val (List.insertionSort (· ≤ ·)) fun _ _ h ↦
    List.Perm.eq_of_pairwise' (List.pairwise_insertionSort _ _) (List.pairwise_insertionSort _ _)
      ((List.perm_insertionSort _ _).trans (h.trans (List.perm_insertionSort _ _).symm))

@[simp] theorem mem_sorted {s : Finset ν} {a : ν} : a ∈ sorted s ↔ a ∈ s := by
  obtain ⟨m, hm⟩ := s
  induction m using Quot.ind with
  | mk l => exact List.mem_insertionSort _

theorem sorted_nodup (s : Finset ν) : (sorted s).Nodup := by
  obtain ⟨m, hm⟩ := s
  induction m using Quot.ind with
  | mk l => exact (List.perm_insertionSort _ l).nodup_iff.mpr hm

theorem sorted_pairwise (s : Finset ν) : (sorted s).Pairwise (· ≤ ·) := by
  obtain ⟨m, hm⟩ := s
  induction m using Quot.ind with
  | mk l => exact List.pairwise_insertionSort _ l

/-- Filtering a sorted set. -/
theorem sorted_filter (s : Finset ν) (p : ν → Bool) :
    (sorted s).filter p = sorted (s.filter fun a ↦ p a = true) := by
  refine List.Perm.eq_of_pairwise' (r := (· ≤ ·)) ((sorted_pairwise s).filter _)
    (sorted_pairwise _) ?_
  rw [List.perm_ext_iff_of_nodup ((sorted_nodup s).filter _) (sorted_nodup _)]
  intro a
  simp [and_comm]

end Sorting

/-! ## Trees -/

/-- What there can be at a path. -/
inductive Node (γ : Type*)
  | dir
  | file (c : γ)
  deriving DecidableEq, Repr

/-- A finite directory tree with names from `ν` and file contents from `γ`. -/
structure Tree (ν γ : Type*) where
  /-- What is at a path. -/
  get : List ν → Option (Node γ)
  /-- The paths at which there is something. -/
  dom : Finset (List ν)
  mem_dom : ∀ p, p ∈ dom ↔ get p ≠ none
  /-- The root is a directory, always. -/
  root : get [] = some .dir
  /-- Whatever exists lies in a directory. -/
  parent_dir : ∀ p n, get (p ++ [n]) ≠ none → get p = some .dir

namespace Tree

variable {ν γ : Type*}

/-- Two trees that answer every lookup alike are equal. -/
theorem ext_get {s t : Tree ν γ} (h : ∀ p, s.get p = t.get p) : s = t := by
  have hget : s.get = t.get := funext h
  have hdom : s.dom = t.dom := by
    ext p
    rw [s.mem_dom, t.mem_dom, hget]
  cases s; cases t
  cases hget; cases hdom
  rfl

/-- There is a directory at `p`. -/
def isDir (t : Tree ν γ) (p : List ν) : Bool :=
  match t.get p with
  | some .dir => true
  | _ => false

/-- There is a file at `p`. -/
def isFile (t : Tree ν γ) (p : List ν) : Bool :=
  match t.get p with
  | some (.file _) => true
  | _ => false

/-- There is something at `p`. -/
def has (t : Tree ν γ) (p : List ν) : Bool := (t.get p).isSome

/-- The content of the file at `p`, if there is one. -/
def read (t : Tree ν γ) (p : List ν) : Option γ :=
  match t.get p with
  | some (.file c) => some c
  | _ => none

@[simp] theorem isDir_iff {t : Tree ν γ} {p : List ν} : t.isDir p = true ↔ t.get p = some .dir := by
  rw [isDir]
  split <;> simp_all

@[simp] theorem isFile_iff {t : Tree ν γ} {p : List ν} :
    t.isFile p = true ↔ ∃ c, t.get p = some (.file c) := by
  rw [isFile]
  split <;> simp_all

@[simp] theorem read_eq_some {t : Tree ν γ} {p : List ν} {c : γ} :
    t.read p = some c ↔ t.get p = some (.file c) := by
  rw [read]
  split <;> simp_all

/-- Every ancestor of something that exists is a directory. -/
theorem dir_of_below {t : Tree ν γ} {p q : List ν} (hpq : p <+: q) (hne : p ≠ q)
    (h : t.get q ≠ none) : t.get p = some .dir := by
  obtain ⟨r, rfl⟩ := hpq
  induction r using List.reverseRecOn with
  | nil => simp at hne
  | append_singleton r n ih =>
    rw [← List.append_assoc] at h
    have hr := t.parent_dir (p ++ r) n h
    by_cases h0 : r = []
    · simpa [h0] using hr
    · exact ih (by simpa using h0) (by simp [hr])

/-- Nothing lies below a path that is not a directory. -/
theorem get_eq_none_of_below {t : Tree ν γ} {p q : List ν} (hpq : p <+: q) (hne : p ≠ q)
    (h : t.get p ≠ some .dir) : t.get q = none := by
  by_contra hq
  exact h (dir_of_below hpq hne hq)

/-- A path does not lie below its own extension. -/
theorem not_concat_below (q : List ν) (n : ν) : ¬q ++ [n] <+: q := fun h ↦ by
  have hlen := h.length_le
  rw [List.length_append, List.length_singleton] at hlen
  omega

/-- No file is in the way of `mkdir -p p`. -/
def clear (t : Tree ν γ) (p : List ν) : Bool := p.inits.all fun q ↦ !t.isFile q

theorem clear_iff {t : Tree ν γ} {p : List ν} :
    t.clear p = true ↔ ∀ q, q <+: p → ∀ c, t.get q ≠ some (.file c) := by
  simp only [clear, List.all_eq_true, List.mem_inits, Bool.not_eq_true']
  refine forall₂_congr fun q _ ↦ ?_
  rw [← Bool.not_eq_true, isFile_iff, not_exists]

/-- A file can be written at `p`: its directory exists and `p` is not a directory itself. -/
def writable (t : Tree ν γ) (p : List ν) : Bool :=
  decide (p ≠ []) && t.isDir p.dropLast && !t.isDir p

theorem writable_iff {t : Tree ν γ} {p : List ν} :
    t.writable p = true ↔ p ≠ [] ∧ t.get p.dropLast = some .dir ∧ t.get p ≠ some .dir := by
  simp only [writable, Bool.and_eq_true, decide_eq_true_eq, Bool.not_eq_true', and_assoc,
    isDir_iff, ← Bool.not_eq_true]

/-- The tree with nothing in it. -/
def empty : Tree ν γ where
  get p := if p = [] then some .dir else none
  dom := {[]}
  mem_dom p := by by_cases h : p = [] <;> simp [h]
  root := by simp
  parent_dir p n h := by simp at h

theorem get_empty (p : List ν) :
    (empty : Tree ν γ).get p = if p = [] then some .dir else none := rfl

variable [DecidableEq ν]

/-! ## Removing -/

/-- `rm -rf p`. -/
def rm (t : Tree ν γ) (p : List ν) : Tree ν γ where
  get q := if p <+: q ∧ q ≠ [] then none else t.get q
  dom := t.dom.filter fun q ↦ ¬(p <+: q ∧ q ≠ [])
  mem_dom q := by
    rw [Finset.mem_filter, t.mem_dom]
    split
    · rename_i hq; exact iff_of_false (fun h ↦ h.2 hq) (by simp)
    · rename_i hq; exact and_iff_left hq
  root := by simp [t.root]
  parent_dir q n h := by
    have hn : ¬(p <+: q ++ [n] ∧ q ++ [n] ≠ []) := fun hc ↦ h (if_pos hc)
    have hq : ¬(p <+: q ∧ q ≠ []) := fun hc ↦
      hn ⟨hc.1.trans (List.prefix_append q [n]), by simp⟩
    rw [if_neg hn] at h
    rw [if_neg hq]
    exact t.parent_dir q n h

theorem get_rm (t : Tree ν γ) (p q : List ν) :
    (t.rm p).get q = if p <+: q ∧ q ≠ [] then none else t.get q := rfl

/-! ## Making directories -/

/-- `mkdir -p p`. -/
def mkdirs (t : Tree ν γ) (p : List ν) : Option (Tree ν γ) :=
  if h : t.clear p = true then
    some
      { get := fun q ↦ if q <+: p then some .dir else t.get q
        dom := t.dom ∪ p.inits.toFinset
        mem_dom := fun q ↦ by
          rw [Finset.mem_union, t.mem_dom, List.mem_toFinset, List.mem_inits]
          split <;> simp_all
        root := by simp
        parent_dir := fun q n hq ↦ by
          by_cases hp : q <+: p
          · exact if_pos hp
          · have hn : ¬ q ++ [n] <+: p := fun hc ↦ hp ((List.prefix_append q [n]).trans hc)
            rw [if_neg hn] at hq
            rw [if_neg hp]
            exact t.parent_dir q n hq }
  else none

theorem mkdirs_isSome {t : Tree ν γ} {p : List ν} : (t.mkdirs p).isSome = t.clear p := by
  rw [mkdirs]
  split <;> simp_all

theorem get_mkdirs {t t' : Tree ν γ} {p : List ν} (h : t.mkdirs p = some t') (q : List ν) :
    t'.get q = if q <+: p then some .dir else t.get q := by
  rw [mkdirs] at h
  split at h
  · cases h; rfl
  · cases h

/-- A directory that is there is left alone. -/
theorem mkdirs_of_dir {t : Tree ν γ} {p : List ν} (h : t.get p = some .dir) :
    t.mkdirs p = some t := by
  have habove : ∀ q, q <+: p → t.get q = some .dir := by
    intro q hq
    by_cases hne : q = p
    · rw [hne]; exact h
    · exact dir_of_below hq hne (by rw [h]; simp)
  have hclear : (t.mkdirs p).isSome = true := by
    rw [mkdirs_isSome, clear_iff]
    intro q hq c hc
    rw [habove q hq] at hc
    cases hc
  obtain ⟨u, hu⟩ := Option.isSome_iff_exists.mp hclear
  have hut : u = t := by
    refine ext_get fun q ↦ ?_
    rw [get_mkdirs hu]
    split
    · rename_i hq
      exact (habove q hq).symm
    · rfl
  rw [hu, hut]

/-! ## Writing a file -/

/-- `> p`, with content `c`. -/
def write (t : Tree ν γ) (p : List ν) (c : γ) : Option (Tree ν γ) :=
  if h : t.writable p = true then
    some
      { get := fun q ↦ if q = p then some (.file c) else t.get q
        dom := insert p t.dom
        mem_dom := fun q ↦ by
          rw [Finset.mem_insert, t.mem_dom]
          split <;> simp_all
        root := by
          rw [if_neg (Ne.symm (writable_iff.mp h).1)]
          exact t.root
        parent_dir := fun q n hq ↦ by
          obtain ⟨hp, hdir, hnot⟩ := writable_iff.mp h
          by_cases hqn : q ++ [n] = p
          · have hd : p.dropLast = q := by rw [← hqn, List.dropLast_concat]
            have hqp : q ≠ p := by rintro rfl; simp at hqn
            rw [if_neg hqp, ← hd]
            exact hdir
          · rw [if_neg hqn] at hq
            have hd := t.parent_dir q n hq
            have hqp : q ≠ p := by rintro rfl; exact hnot hd
            rw [if_neg hqp]
            exact hd }
  else none

theorem write_isSome {t : Tree ν γ} {p : List ν} {c : γ} : (t.write p c).isSome = t.writable p := by
  rw [write]
  split <;> simp_all

theorem get_write {t t' : Tree ν γ} {p : List ν} {c : γ} (h : t.write p c = some t')
    (q : List ν) : t'.get q = if q = p then some (.file c) else t.get q := by
  rw [write] at h
  split at h
  · cases h; rfl
  · cases h

/-! ## Copying trees -/

/-- `cp -a s/. p/`, where `p` is a directory with nothing in it that `s` has to be merged with. -/
def graft (t : Tree ν γ) (p : List ν) (s : Tree ν γ) : Option (Tree ν γ) :=
  if h : t.isDir p = true then
    some
      { get := fun q ↦ if p <+: q then s.get (q.drop p.length) else t.get q
        dom := (t.dom.filter fun q ↦ ¬p <+: q) ∪ s.dom.image (p ++ ·)
        mem_dom := fun q ↦ by
          rw [Finset.mem_union, Finset.mem_filter, t.mem_dom, Finset.mem_image]
          split
          · rename_i hq
            obtain ⟨r, rfl⟩ := hq
            simp [s.mem_dom]
          · rename_i hq
            constructor
            · rintro (h1 | ⟨r, -, rfl⟩)
              · exact h1.1
              · exact absurd (List.prefix_append p r) hq
            · exact fun h1 ↦ .inl ⟨h1, hq⟩
        root := by
          by_cases hp : p = []
          · simp [hp, s.root]
          · simp [hp, t.root]
        parent_dir := fun q n hq ↦ by
          by_cases hqn : p <+: q ++ [n]
          · rw [if_pos hqn] at hq
            rcases (List.prefix_concat_iff.mp hqn) with rfl | hpq
            · rw [if_neg (not_concat_below q n)]
              exact t.parent_dir q n (by simp [isDir_iff.mp h])
            · rw [if_pos hpq]
              obtain ⟨r, rfl⟩ := hpq
              rw [List.append_assoc, List.drop_left] at hq
              rw [List.drop_left]
              exact s.parent_dir r n hq
          · have hpq : ¬p <+: q := fun hc ↦ hqn (hc.trans (List.prefix_append q [n]))
            rw [if_neg hqn] at hq
            rw [if_neg hpq]
            exact t.parent_dir q n hq }
  else none

theorem graft_isSome {t s : Tree ν γ} {p : List ν} : (t.graft p s).isSome = t.isDir p := by
  rw [graft]
  split
  · rename_i h; rw [h]; rfl
  · rename_i h; rw [Bool.not_eq_true] at h; rw [h]; rfl

theorem get_graft {t t' s : Tree ν γ} {p : List ν} (h : t.graft p s = some t') (q : List ν) :
    t'.get q = if p <+: q then s.get (q.drop p.length) else t.get q := by
  rw [graft] at h
  split at h
  · cases h; rfl
  · cases h

/-- Put back whatever `old` had at and below `p`. -/
def takeFrom (t old : Tree ν γ) (p : List ν) : Option (Tree ν γ) :=
  if h : p ≠ [] ∧ t.isDir p.dropLast = true then
    some
      { get := fun q ↦ if p <+: q then old.get q else t.get q
        dom := (t.dom.filter fun q ↦ ¬p <+: q) ∪ old.dom.filter (p <+: ·)
        mem_dom := fun q ↦ by
          rw [Finset.mem_union, Finset.mem_filter, Finset.mem_filter, t.mem_dom, old.mem_dom]
          split <;> simp_all
        root := by simp [h.1, t.root]
        parent_dir := fun q n hq ↦ by
          by_cases hqn : p <+: q ++ [n]
          · rw [if_pos hqn] at hq
            rcases (List.prefix_concat_iff.mp hqn) with hp | hpq
            · have hd : p.dropLast = q := by rw [hp, List.dropLast_concat]
              rw [if_neg (hp ▸ not_concat_below q n), ← hd]
              exact isDir_iff.mp h.2
            · rw [if_pos hpq]
              exact old.parent_dir q n hq
          · have hpq : ¬p <+: q := fun hc ↦ hqn (hc.trans (List.prefix_append q [n]))
            rw [if_neg hqn] at hq
            rw [if_neg hpq]
            exact t.parent_dir q n hq }
  else none

theorem takeFrom_isSome {t old : Tree ν γ} {p : List ν} :
    (t.takeFrom old p).isSome = true ↔ p ≠ [] ∧ t.isDir p.dropLast = true := by
  rw [takeFrom]
  split
  · rename_i h; exact iff_of_true rfl h
  · rename_i h; exact iff_of_false (by simp) h

theorem get_takeFrom {t t' old : Tree ν γ} {p : List ν} (h : t.takeFrom old p = some t')
    (q : List ν) : t'.get q = if p <+: q then old.get q else t.get q := by
  rw [takeFrom] at h
  split at h
  · cases h; rfl
  · cases h

/-- The tree at the directory `d`; nothing if there is none. -/
def sub (t : Tree ν γ) (d : List ν) : Tree ν γ :=
  if h : t.isDir d = true then
    { get := fun q ↦ t.get (d ++ q)
      dom := (t.dom.filter (d <+: ·)).image (List.drop d.length)
      mem_dom := fun q ↦ by
        rw [Finset.mem_image]
        constructor
        · rintro ⟨p, hp, rfl⟩
          rw [Finset.mem_filter, t.mem_dom] at hp
          obtain ⟨hp, r, rfl⟩ := hp
          rwa [List.drop_left]
        · intro hq
          refine ⟨d ++ q, ?_, List.drop_left⟩
          rw [Finset.mem_filter, t.mem_dom]
          exact ⟨hq, List.prefix_append d q⟩
      root := by rw [List.append_nil]; exact isDir_iff.mp h
      parent_dir := fun q n hq ↦ by
        rw [← List.append_assoc] at hq
        exact t.parent_dir _ _ hq }
  else empty

theorem get_sub {t : Tree ν γ} {d : List ν} (h : t.isDir d = true) (q : List ν) :
    (t.sub d).get q = t.get (d ++ q) := by
  rw [sub, dif_pos h]

/-- The tree at a directory of the tree at a directory. -/
theorem sub_sub {t : Tree ν γ} {d e : List ν} (hd : t.isDir d = true)
    (he : t.isDir (d ++ e) = true) : (t.sub d).sub e = t.sub (d ++ e) := by
  have he' : (t.sub d).isDir e = true := by
    rw [isDir_iff, get_sub hd]
    exact isDir_iff.mp he
  refine ext_get fun q ↦ ?_
  rw [get_sub he', get_sub hd, get_sub he, List.append_assoc]

/-! ## Listing a directory -/

/-- The names in the directory `d`. -/
def childSet (t : Tree ν γ) (d : List ν) : Finset ν :=
  t.dom.filterMap (fun q ↦ if q.dropLast = d then q.getLast? else none) <| by
    intro q r n hq hr
    split at hq
    · split at hr
      · rename_i h1 h2
        rw [Option.mem_def, List.getLast?_eq_some_iff] at hq hr
        obtain ⟨q', rfl⟩ := hq
        obtain ⟨r', rfl⟩ := hr
        simp_all
      · cases hr
    · cases hq

theorem mem_childSet {t : Tree ν γ} {d : List ν} {n : ν} :
    n ∈ t.childSet d ↔ t.get (d ++ [n]) ≠ none := by
  rw [childSet, Finset.mem_filterMap]
  constructor
  · rintro ⟨q, hq, hn⟩
    split at hn
    · rename_i hd
      obtain ⟨q', rfl⟩ := List.getLast?_eq_some_iff.mp hn
      rw [List.dropLast_concat] at hd
      rw [← hd]
      exact (t.mem_dom _).mp hq
    · cases hn
  · intro h
    exact ⟨d ++ [n], (t.mem_dom _).mpr h, by simp⟩

end Tree

namespace Tree

variable {ν γ : Type*} [LinearOrder ν]

/-- The names in the directory `d`, sorted. -/
def children (t : Tree ν γ) (d : List ν) : List ν := sorted (t.childSet d)

@[simp] theorem mem_children {t : Tree ν γ} {d : List ν} {n : ν} :
    n ∈ t.children d ↔ t.get (d ++ [n]) ≠ none := by
  rw [children, mem_sorted, mem_childSet]

theorem children_nodup (t : Tree ν γ) (d : List ν) : (t.children d).Nodup := sorted_nodup _

theorem children_pairwise (t : Tree ν γ) (d : List ν) : (t.children d).Pairwise (· < ·) :=
  ((sorted_pairwise _).and (t.children_nodup d)).imp fun h ↦ lt_of_le_of_ne h.1 h.2

/-- A listing depends only on which names exist. -/
theorem children_congr {s t : Tree ν γ} {d e : List ν}
    (h : ∀ n, s.get (d ++ [n]) ≠ none ↔ t.get (e ++ [n]) ≠ none) : s.children d = t.children e := by
  rw [children, children]
  congr 1
  ext n
  rw [mem_childSet, mem_childSet, h]

/-- A filtered listing depends only on which of the wanted names exist. -/
theorem children_filter_congr {s t : Tree ν γ} {d e : List ν} {p p' : ν → Bool}
    (h : ∀ n, s.get (d ++ [n]) ≠ none ∧ p n = true ↔ t.get (e ++ [n]) ≠ none ∧ p' n = true) :
    (s.children d).filter p = (t.children e).filter p' := by
  rw [children, children, sorted_filter, sorted_filter]
  congr 1
  ext n
  rw [Finset.mem_filter, Finset.mem_filter, mem_childSet, mem_childSet, h]

/-- Every directory of the tree, the root first. -/
def dirs (t : Tree ν γ) : List (List ν) := sorted (t.dom.filter fun p ↦ t.isDir p)

@[simp] theorem mem_dirs {t : Tree ν γ} {p : List ν} : p ∈ t.dirs ↔ t.get p = some .dir := by
  rw [dirs, mem_sorted, Finset.mem_filter, t.mem_dom, isDir_iff]
  constructor
  · exact fun h ↦ h.2
  · exact fun h ↦ ⟨by simp [h], h⟩

end Tree

end DirTree
