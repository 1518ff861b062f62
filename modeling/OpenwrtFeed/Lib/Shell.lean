import Mathlib.Data.List.Basic
import Mathlib.Data.List.Infix
import Mathlib.Data.List.TakeWhile
import Mathlib.Data.Char

/-!
# The shell's string operations

Scripts take strings apart with parameter expansions and patterns.  A string is a list of
characters here, and each expansion is one function:

* `beforeFirst c s` is `${s%%c*}` and `afterFirst c s` is `${s#*c}`: the two halves at the first
  `c`;
* `beforeLast c s` is `${s%c*}` and `afterLast c s` is `${s##*c}`: the two halves at the last one;
* `stripPrefix p s` is `${s#p}` and `stripSuffix p s` is `${s%p}`, for a literal `p`;
* `trimShortest p s` is `${s%p}` and `dropLongest p s` is `${s##p}`, for a pattern;
* `words s` is what an unquoted `$s` falls into.

An expansion whose pattern does not occur leaves the string alone, which is where code that splits a
string and joins it again goes wrong; `afterFirst_of_notMem` and its siblings state that case
separately.

`Glob` is the pattern language of `case` and of pathname expansion: `*`, `?`, bracket expressions
(ranges and negation, but neither named classes nor a backslash in them) and backslash quoting.
-/

set_option autoImplicit false

namespace Shell

/-- Text, as a list of characters. -/
abbrev Str := List Char

/-! ## Parameter expansion -/

/-- `${s%%c*}`. -/
def beforeFirst (c : Char) (s : Str) : Str := s.takeWhile (· ≠ c)

/-- `${s#*c}`. -/
def afterFirst (c : Char) (s : Str) : Str :=
  if c ∈ s then (s.dropWhile (· ≠ c)).tail else s

/-- `${s%c*}`. -/
def beforeLast (c : Char) (s : Str) : Str :=
  if c ∈ s then (afterFirst c s.reverse).reverse else s

/-- `${s##*c}`. -/
def afterLast (c : Char) (s : Str) : Str := (beforeFirst c s.reverse).reverse

/-- `${s#p}` for a literal `p`. -/
def stripPrefix (p s : Str) : Str := if p <+: s then s.drop p.length else s

/-- `${s%p}` for a literal `p`. -/
def stripSuffix (p s : Str) : Str := if p <:+ s then s.take (s.length - p.length) else s

theorem beforeFirst_append {c : Char} {s : Str} (hs : c ∉ s) (t : Str) :
    beforeFirst c (s ++ c :: t) = s := by
  rw [beforeFirst, List.takeWhile_append_of_pos
    (by intro a ha; simpa using ne_of_mem_of_not_mem ha hs)]
  simp

theorem afterFirst_append {c : Char} {s : Str} (hs : c ∉ s) (t : Str) :
    afterFirst c (s ++ c :: t) = t := by
  rw [afterFirst, if_pos (by simp),
    List.dropWhile_append_of_pos (by intro a ha; simpa using ne_of_mem_of_not_mem ha hs)]
  simp

theorem beforeFirst_notMem (c : Char) (s : Str) : c ∉ beforeFirst c s := by
  intro h
  simpa using List.mem_takeWhile_imp h

theorem beforeFirst_of_notMem {c : Char} {s : Str} (h : c ∉ s) : beforeFirst c s = s := by
  rw [beforeFirst, List.takeWhile_eq_self_iff]
  intro a ha
  simpa using ne_of_mem_of_not_mem ha h

/-- The two halves at the first `c` are the whole string. -/
theorem beforeFirst_cons_afterFirst {c : Char} {s : Str} (h : c ∈ s) :
    beforeFirst c s ++ c :: afterFirst c s = s := by
  rw [beforeFirst, afterFirst, if_pos h]
  induction s with
  | nil => simp at h
  | cons a s ih =>
    by_cases ha : a = c
    · simp [ha]
    · rw [List.takeWhile_cons_of_pos (by simpa using ha),
        List.dropWhile_cons_of_pos (by simpa using ha), List.cons_append]
      rw [ih ((List.mem_cons.mp h).resolve_left (Ne.symm ha))]

theorem afterFirst_append_of_mem {c : Char} {s : Str} (hs : c ∈ s) (t : Str) :
    afterFirst c (s ++ t) = afterFirst c s ++ t := by
  have h := beforeFirst_cons_afterFirst hs
  rw [← h, List.append_assoc, List.cons_append, afterFirst_append (beforeFirst_notMem c s),
    afterFirst_append (beforeFirst_notMem c s)]

/-- Joining two strings and splitting them again gives back the second one only if the first has no
separator in it. -/
theorem afterFirst_append_iff {c : Char} {s t : Str} : afterFirst c (s ++ c :: t) = t ↔ c ∉ s := by
  refine ⟨fun h hs ↦ ?_, fun hs ↦ afterFirst_append hs t⟩
  rw [← beforeFirst_cons_afterFirst hs, List.append_assoc, List.cons_append,
    afterFirst_append (beforeFirst_notMem c s)] at h
  have hlen := congrArg List.length h
  rw [List.length_append, List.length_cons] at hlen
  omega

/-- What comes before a last field without separator. -/
theorem beforeLast_append {c : Char} {t : Str} (ht : c ∉ t) (s : Str) :
    beforeLast c (s ++ c :: t) = s := by
  rw [beforeLast, if_pos (by simp), List.reverse_append, List.reverse_cons, List.append_assoc,
    List.singleton_append, afterFirst_append (by simpa using ht), List.reverse_reverse]

theorem afterLast_append {c : Char} {t : Str} (ht : c ∉ t) (s : Str) :
    afterLast c (s ++ c :: t) = t := by
  rw [afterLast, List.reverse_append, List.reverse_cons, List.append_assoc,
    List.singleton_append, beforeFirst_append (by simpa using ht), List.reverse_reverse]

/-- The two halves at the last `c` are the whole string. -/
theorem beforeLast_cons_afterLast {c : Char} {s : Str} (h : c ∈ s) :
    beforeLast c s ++ c :: afterLast c s = s := by
  have hr := congrArg List.reverse (beforeFirst_cons_afterFirst (List.mem_reverse.mpr h))
  rw [List.reverse_append, List.reverse_cons, List.reverse_reverse, List.append_assoc,
    List.singleton_append] at hr
  rw [beforeLast, if_pos h, afterLast]
  exact hr

theorem afterLast_notMem (c : Char) (s : Str) : c ∉ afterLast c s := by
  rw [afterLast, List.mem_reverse]
  exact beforeFirst_notMem c s.reverse

/-- What follows the last field stays with it. -/
theorem beforeLast_append_of_mem {c : Char} {s t : Str} (hs : c ∈ s) (ht : c ∉ t) :
    beforeLast c (s ++ t) = beforeLast c s := by
  have hlast : c ∉ afterLast c s ++ t := by
    rw [List.mem_append, not_or]
    exact ⟨afterLast_notMem c s, ht⟩
  conv_lhs => rw [← beforeLast_cons_afterLast hs]
  rw [List.append_assoc, List.cons_append, beforeLast_append hlast]

theorem mem_of_mem_afterLast {c x : Char} {s : Str} (h : x ∈ afterLast c s) : x ∈ s := by
  rw [afterLast, List.mem_reverse] at h
  exact List.mem_reverse.mp ((List.takeWhile_prefix _).subset h)

theorem mem_of_mem_beforeLast {c x : Char} {s : Str} (h : x ∈ beforeLast c s) : x ∈ s := by
  rw [beforeLast] at h
  split at h
  · rename_i hc
    rw [← beforeLast_cons_afterLast hc, beforeLast, if_pos hc]
    exact List.mem_append_left _ h
  · exact h

theorem stripSuffix_append (s p : Str) : stripSuffix p (s ++ p) = s := by
  rw [stripSuffix, if_pos (List.suffix_append s p), List.length_append, Nat.add_sub_cancel,
    List.take_left]

theorem stripSuffix_append_of_suffix {p s : Str} (h : p <:+ s) : stripSuffix p s ++ p = s := by
  obtain ⟨t, rfl⟩ := h
  rw [stripSuffix_append]

/-! ## Paths and words -/

/-- The components of a path, as the kernel reads it: repeated slashes count once. -/
def components (s : Str) : List Str := (s.splitOn '/').filter (· ≠ [])

/-- The absolute path with the given components, as `pwd` prints it. -/
def absPath (p : List Str) : Str := '/' :: ['/'].intercalate p

/-- `$(...)`: the newlines at the end of what a command prints are dropped. -/
def captured (s : Str) : Str := (s.reverse.dropWhile (· = '\n')).reverse

theorem captured_eq_self {s : Str} (h : s.getLast? ≠ some '\n') : captured s = s := by
  have hd : s.reverse.dropWhile (· = '\n') = s.reverse := by
    rw [List.dropWhile_eq_self_iff]
    intro hl hc
    rw [decide_eq_true_eq] at hc
    refine h ?_
    rw [← List.head?_reverse, List.head?_eq_getElem?, List.getElem?_eq_getElem hl, hc]
  rw [captured, hd, List.reverse_reverse]

/-- Only newlines are lost. -/
theorem eq_captured_append (s : Str) : ∃ n, s = captured s ++ List.replicate n '\n' := by
  refine ⟨(s.reverse.takeWhile (· = '\n')).length, ?_⟩
  have hnl : s.reverse.takeWhile (· = '\n') =
      List.replicate (s.reverse.takeWhile (· = '\n')).length '\n' := by
    rw [List.eq_replicate_iff]
    exact ⟨rfl, fun c hc ↦ by simpa using List.mem_takeWhile_imp hc⟩
  rw [← List.reverse_replicate, ← hnl, captured, ← List.reverse_append,
    List.takeWhile_append_dropWhile,
    List.reverse_reverse]

theorem captured_getLast? (s : Str) : (captured s).getLast? ≠ some '\n' := by
  rw [captured, List.getLast?_reverse]
  intro h
  have := List.head?_dropWhile_not (· = '\n') s.reverse
  rw [h] at this
  simp at this

theorem mem_splitOn_notMem {c : Char} {s f : Str} (h : f ∈ s.splitOn c) : c ∉ f := by
  induction s generalizing f with
  | nil =>
    rw [List.splitOn_nil, List.mem_singleton] at h
    simp [h]
  | cons a s ih =>
    rw [List.splitOn_cons_eq_if_modifyHead] at h
    split at h
    · rcases List.mem_cons.mp h with rfl | h
      · simp
      · exact ih h
    · rename_i ha
      obtain ⟨f₀, fs, hfs⟩ := List.exists_cons_of_ne_nil (List.splitOn_ne_nil c s)
      rw [hfs, List.modifyHead_cons] at h
      rcases List.mem_cons.mp h with rfl | h
      · have h₀ : c ∉ f₀ := ih (by rw [hfs]; exact List.mem_cons_self)
        rw [List.mem_cons, not_or]
        exact ⟨fun hc ↦ ha (by simp [hc]), h₀⟩
      · exact ih (by rw [hfs]; exact List.mem_cons_of_mem _ h)

/-- A component is a name. -/
theorem mem_components {s f : Str} (h : f ∈ components s) : f ≠ [] ∧ '/' ∉ f := by
  rw [components, List.mem_filter] at h
  exact ⟨by simpa using h.2, mem_splitOn_notMem h.1⟩

/-- Only the slashes are lost. -/
theorem components_flatten (s : Str) : (components s).flatten = s.filter (· ≠ '/') := by
  have hall : (s.splitOn '/').flatten = s.filter (· ≠ '/') := by
    induction s with
    | nil => simp
    | cons a s ih =>
      rw [List.splitOn_cons_eq_if_modifyHead]
      obtain ⟨f₀, fs, hfs⟩ := List.exists_cons_of_ne_nil (List.splitOn_ne_nil '/' s)
      rw [hfs] at ih ⊢
      split
      · rename_i ha
        have ha : a = '/' := by simpa using ha
        rw [ha, List.filter_cons_of_neg (by simp), ← ih]
        rfl
      · rename_i ha
        have ha : a ≠ '/' := by simpa using ha
        rw [List.filter_cons_of_pos (by simpa using ha), ← ih]
        rfl
  rw [← hall, components]
  exact List.flatten_filter_ne_nil

/-- Reading back what `pwd` prints. -/
theorem components_absPath {p : List Str} (h : ∀ f ∈ p, f ≠ [] ∧ '/' ∉ f) :
    components (absPath p) = p := by
  rw [components, absPath, List.splitOn_cons_eq_if_modifyHead, if_pos (by simp),
    List.filter_cons_of_neg (by simp)]
  by_cases hp : p = []
  · simp [hp]
  · rw [List.splitOn_intercalate _ (fun f hf ↦ (h f hf).2) hp, List.filter_eq_self]
    exact fun f hf ↦ by simpa using (h f hf).1

/-- A path ends in its last component. -/
theorem suffix_absPath (p : List Str) (n : Str) : n <:+ absPath (p ++ [n]) := by
  have h : n <:+ ['/'].intercalate (p ++ [n]) := by
    induction p with
    | nil => rw [List.nil_append, List.intercalate_singleton]
    | cons a p ih =>
      rw [List.cons_append, List.intercalate_cons_of_ne_nil (by simp)]
      exact ih.trans (List.suffix_append _ _)
  exact h.trans (List.suffix_cons _ _)

/-- The first field stands before a separator, once there is one at the end. -/
theorem splitOn_head {c : Char} {s f : Str} {fs : List Str} (h : s.splitOn c = f :: fs) :
    f ++ [c] <+: s ++ [c] := by
  induction s generalizing f fs with
  | nil =>
    rw [List.splitOn_nil, List.cons.injEq] at h
    rw [← h.1]
  | cons a s ih =>
    rw [List.splitOn_cons_eq_if_modifyHead] at h
    split at h
    · rename_i ha
      rw [List.cons.injEq] at h
      rw [← h.1, beq_iff_eq.mp ha]
      simp
    · obtain ⟨f₀, fs₀, hfs⟩ := List.exists_cons_of_ne_nil (List.splitOn_ne_nil c s)
      rw [hfs, List.modifyHead_cons, List.cons.injEq] at h
      rw [← h.1]
      exact (List.cons_prefix_cons).mpr ⟨rfl, ih hfs⟩

/-- Every other field stands between two separators. -/
theorem splitOn_tail {c : Char} {s f f₀ : Str} {fs : List Str} (h : s.splitOn c = f₀ :: fs)
    (hf : f ∈ fs) : c :: (f ++ [c]) <:+: s ++ [c] := by
  induction s generalizing f₀ fs with
  | nil =>
    rw [List.splitOn_nil, List.cons.injEq] at h
    rw [← h.2] at hf
    cases hf
  | cons a s ih =>
    obtain ⟨f₁, fs₁, hfs⟩ := List.exists_cons_of_ne_nil (List.splitOn_ne_nil c s)
    rw [List.splitOn_cons_eq_if_modifyHead, hfs] at h
    have hrest : f ∈ fs₁ → c :: (f ++ [c]) <:+: a :: s ++ [c] := fun hmem ↦
      (ih hfs hmem).trans (List.suffix_cons a _).isInfix
    split at h
    · rename_i ha
      rw [List.cons.injEq] at h
      rw [← h.2] at hf
      rcases List.mem_cons.mp hf with rfl | hmem
      · rw [beq_iff_eq.mp ha]
        exact (List.cons_prefix_cons.mpr ⟨rfl, splitOn_head hfs⟩).isInfix
      · exact hrest hmem
    · rw [List.modifyHead_cons, List.cons.injEq] at h
      exact hrest (h.2 ▸ hf)

/-- A component stands between two slashes, once there is one at either end. -/
theorem components_between {s f : Str} (h : f ∈ components s) :
    '/' :: (f ++ ['/']) <:+: '/' :: (s ++ ['/']) := by
  obtain ⟨f₀, fs, hfs⟩ := List.exists_cons_of_ne_nil (List.splitOn_ne_nil '/' s)
  have hmem := List.mem_of_mem_filter h
  rw [hfs] at hmem
  rcases List.mem_cons.mp hmem with rfl | hmem
  · exact (List.cons_prefix_cons.mpr ⟨rfl, splitOn_head hfs⟩).isInfix
  · exact (splitOn_tail hfs hmem).trans (List.suffix_cons '/' _).isInfix

/-- The first component of a relative path is where the path begins. -/
theorem components_head {s : Str} (h : s ≠ []) (hs : s.head? ≠ some '/') :
    ∃ f fs, components s = f :: fs ∧ f ++ ['/'] <+: s ++ ['/'] := by
  obtain ⟨f, fs, hfs⟩ := List.exists_cons_of_ne_nil (List.splitOn_ne_nil '/' s)
  have hf : f ≠ [] := by
    rintro rfl
    obtain ⟨r, hr⟩ := splitOn_head hfs
    cases s with
    | nil => exact h rfl
    | cons a s =>
      have ha : '/' = a := by simpa using (List.cons.inj hr).1
      exact hs (by rw [ha]; rfl)
  refine ⟨f, fs.filter (· ≠ []), ?_, splitOn_head hfs⟩
  rw [components, hfs, List.filter_cons_of_pos (by simpa using hf)]

/-- A slash ends a component. -/
theorem components_slash (s t : Str) :
    components (s ++ '/' :: t) = components s ++ components t := by
  rw [components, List.splitOn_append_cons_self, List.filter_append, components, components]

/-- A slash at the end means nothing. -/
theorem components_append_stripSlash (s t : Str) :
    components (s ++ stripSuffix ['/'] t) = components (s ++ t) := by
  rw [stripSuffix]
  split
  · rename_i h
    obtain ⟨u, rfl⟩ := h
    have hu : (u ++ ['/']).take ((u ++ ['/']).length - ['/'].length) = u := by simp
    rw [hu, ← List.append_assoc, components_slash]
    simp [components]
  · rfl

/-- A name is its own only component. -/
theorem components_of_name {n : Str} (h : n ≠ []) (hn : '/' ∉ n) : components n = [n] := by
  rw [components, List.splitOn_eq_singleton hn, List.filter_cons_of_pos (by simpa using h)]
  rfl

/-- A character other than the slash is in some component. -/
theorem exists_mem_components {c : Char} (hc : c ≠ '/') {s : Str} (h : c ∈ s) :
    ∃ f ∈ components s, c ∈ f := by
  have hmem : c ∈ (components s).flatten := by
    rw [components_flatten, List.mem_filter]
    exact ⟨h, by simpa using hc⟩
  obtain ⟨f, hf, hcf⟩ := List.mem_flatten.mp hmem
  exact ⟨f, hf, hcf⟩

/-- The blanks an unquoted expansion is split at. -/
def isBlank (c : Char) : Bool := c == ' ' || c == '\t' || c == '\n'

/-- What an unquoted `$s` falls into, before pathname expansion. -/
def words (s : Str) : List Str := (s.splitOnP isBlank).filter (· ≠ [])

/-- The lines of a text; a last line without a newline counts. -/
def lines (s : Str) : List Str :=
  let ls := s.splitOn '\n'
  if ls.getLast? = some [] then ls.dropLast else ls

/-! ## Patterns -/

/-- One element of a pattern. -/
inductive Glob
  /-- `*` -/
  | any
  /-- `?` -/
  | one
  /-- A character that stands for itself. -/
  | lit (c : Char)
  /-- A bracket expression: ranges, possibly negated. -/
  | set (neg : Bool) (ranges : List (Char × Char))
  deriving DecidableEq, Repr

namespace Glob

/-- The inside of a bracket expression up to its closing bracket, and what follows.  A bracket
directly after the opening one is an ordinary member (`first`). -/
def bracket : Bool → Str → Option (Str × Str)
  | _, [] => none
  | first, c :: s =>
    if c = ']' ∧ first = false then some ([], s)
    else (bracket false s).map fun r ↦ (c :: r.1, r.2)

/-- The members of a bracket expression, a single one being a range of its own. -/
def ranges : Str → List (Char × Char)
  | [] => []
  | a :: '-' :: b :: s => (a, b) :: ranges s
  | a :: s => (a, a) :: ranges s

/-- Reading a pattern.  An opening bracket that is never closed stands for itself.  The first
argument is a bound on the number of elements, `s.length` being enough. -/
def parseAux : Nat → Str → List Glob
  | 0, _ => []
  | _ + 1, [] => []
  | n + 1, c :: s =>
    if c = '*' then any :: parseAux n s
    else if c = '?' then one :: parseAux n s
    else if c = '\\' then lit (s.headD '\\') :: parseAux n s.tail
    else if c = '[' then
      let neg := s.head? = some '!' ∨ s.head? = some '^'
      match bracket true (if neg then s.tail else s) with
      | some (m, s') => set (decide neg) (ranges m) :: parseAux n s'
      | none => lit c :: parseAux n s
    else lit c :: parseAux n s

def parse (s : Str) : List Glob := parseAux s.length s

/-- `s` matches the pattern. -/
def accepts : List Glob → Str → Bool
  | [], s => s.isEmpty
  | any :: ps, s => s.tails.any (accepts ps)
  | one :: ps, s => match s with
    | [] => false
    | _ :: s' => accepts ps s'
  | lit c :: ps, s => match s with
    | [] => false
    | d :: s' => c == d && accepts ps s'
  | set neg rs :: ps, s => match s with
    | [] => false
    | d :: s' => (rs.any (fun r ↦ decide (r.1 ≤ d) && decide (d ≤ r.2)) != neg) && accepts ps s'

/-- A character with no meaning of its own in a pattern. -/
def plainChar (c : Char) : Bool := c != '*' && c != '?' && c != '[' && c != '\\'

/-- A text without pattern characters. -/
def plain (s : Str) : Bool := s.all plainChar

theorem parseAux_of_plain {s : Str} (h : plain s = true) {n : Nat} (hn : s.length ≤ n) (t : Str) :
    parseAux (n + t.length) (s ++ t) = s.map lit ++ parseAux (n - s.length + t.length) t := by
  induction s generalizing n with
  | nil => simp
  | cons c s ih =>
    obtain ⟨m, rfl⟩ : ∃ m, n = m + 1 := ⟨n - 1, by simp at hn; omega⟩
    rw [plain, List.all_cons, Bool.and_eq_true] at h
    obtain ⟨hc, hs⟩ := h
    simp only [plainChar, Bool.and_eq_true, bne_iff_ne, ne_eq] at hc
    obtain ⟨⟨⟨h1, h2⟩, h3⟩, h4⟩ := hc
    rw [List.cons_append, show m + 1 + t.length = (m + t.length) + 1 by omega, parseAux,
      if_neg h1, if_neg h2, if_neg h4, if_neg h3, ih hs (by simp at hn; omega)]
    rw [List.map_cons, List.cons_append, List.length_cons, Nat.add_sub_add_right]

theorem parse_append_of_plain {s : Str} (h : plain s = true) (t : Str) :
    parse (s ++ t) = s.map lit ++ parse t := by
  have := parseAux_of_plain h (Nat.le_refl s.length) t
  rw [parse, List.length_append, this, parse]
  simp

theorem parse_of_plain {s : Str} (h : plain s = true) : parse s = s.map lit := by
  have := parse_append_of_plain h []
  simpa [parse, parseAux] using this

theorem accepts_lit_append (s : Str) (ps : List Glob) (t : Str) :
    accepts (s.map lit ++ ps) t = true ↔ ∃ u, t = s ++ u ∧ accepts ps u = true := by
  induction s generalizing t with
  | nil => simp
  | cons c s ih =>
    cases t with
    | nil => simp [accepts]
    | cons d t =>
      simp only [List.map_cons, List.cons_append, accepts, Bool.and_eq_true, beq_iff_eq, ih,
        List.cons.injEq]
      constructor
      · rintro ⟨rfl, u, rfl, hu⟩
        exact ⟨u, ⟨rfl, rfl⟩, hu⟩
      · rintro ⟨u, ⟨rfl, rfl⟩, hu⟩
        exact ⟨rfl, u, rfl, hu⟩

/-- A text without pattern characters matches itself and nothing else. -/
theorem accepts_of_plain {s : Str} (h : plain s = true) (t : Str) :
    accepts (parse s) t = true ↔ t = s := by
  rw [parse_of_plain h, ← List.append_nil (s.map lit), accepts_lit_append]
  simp [accepts]

theorem accepts_any (ps : List Glob) (t : Str) :
    accepts (any :: ps) t = true ↔ ∃ u, u <:+ t ∧ accepts ps u = true := by
  simp [accepts, List.any_eq_true, List.mem_tails]

theorem bracket_concat {c : Char} (hc : c ≠ ']') {first : Bool} {s m r : Str}
    (h : bracket first (s ++ [c]) = some (m, r)) : ∃ t, r = t ++ [c] ∧ t.length < s.length := by
  induction s generalizing first m with
  | nil => simp [bracket, hc] at h
  | cons a s ih =>
    rw [List.cons_append, bracket] at h
    split at h
    · cases h
      exact ⟨s, rfl, by simp⟩
    · obtain ⟨⟨m', r'⟩, hb, heq⟩ := Option.map_eq_some_iff.mp h
      cases heq
      obtain ⟨t, rfl, ht⟩ := ih hb
      exact ⟨t, rfl, by simp; omega⟩

/-- A pattern that ends in an ordinary character ends in that character, whatever stands before. -/
theorem parseAux_concat {c : Char} (hc : plainChar c = true) (hb : c ≠ ']') {n : Nat} {s : Str}
    (hn : s.length < n) : ∃ ps, parseAux n (s ++ [c]) = ps ++ [lit c] := by
  obtain ⟨⟨⟨h1, h2⟩, h3⟩, h4⟩ : ((c ≠ '*' ∧ c ≠ '?') ∧ c ≠ '[') ∧ c ≠ '\\' := by
    simpa [plainChar] using hc
  induction n generalizing s with
  | zero => omega
  | succ n ih =>
    have hlast : ∃ ps, parseAux (n + 1) [c] = ps ++ [lit c] := by
      refine ⟨[], ?_⟩
      rw [parseAux, if_neg h1, if_neg h2, if_neg h4, if_neg h3]
      cases n <;> rfl
    -- one element more in front
    have hcons : ∀ (g : Glob) (t : Str), t.length < n →
        ∃ ps, g :: parseAux n (t ++ [c]) = ps ++ [lit c] := fun g t ht ↦ by
      obtain ⟨ps, hps⟩ := ih ht
      exact ⟨g :: ps, by rw [hps]; rfl⟩
    cases s with
    | nil => exact hlast
    | cons a s =>
      have hs : s.length < n := by simpa using hn
      rw [List.cons_append, parseAux]
      split
      · exact hcons _ s hs
      · split
        · exact hcons _ s hs
        · split
          · cases s with
            | nil =>
              refine ⟨[], ?_⟩
              cases n <;> rfl
            | cons b s => exact hcons _ s (by simp at hs; omega)
          · split
            · simp only
              split
              · rename_i m r hm
                have hr : ∃ t, r = t ++ [c] ∧ t.length < s.length := by
                  split at hm
                  · cases s with
                    | nil => simp [bracket] at hm
                    | cons b s =>
                      obtain ⟨t, ht, hlen⟩ := bracket_concat hb hm
                      exact ⟨t, ht, by simp; omega⟩
                  · exact bracket_concat hb hm
                obtain ⟨t, rfl, ht⟩ := hr
                exact hcons _ t (by omega)
              · exact hcons _ s hs
            · exact hcons _ s hs

theorem accepts_concat {c : Char} {ps : List Glob} {s : Str}
    (h : accepts (ps ++ [lit c]) s = true) : s.getLast? = some c := by
  induction ps generalizing s with
  | nil =>
    rcases s with _ | ⟨d, s⟩
    · simp [accepts] at h
    · simp [accepts] at h
      rw [h.1, h.2]
      rfl
  | cons g ps ih =>
    -- what the first element takes away is in front of the rest
    have hrest : ∀ t, t <:+ s → accepts (ps ++ [lit c]) t = true → s.getLast? = some c := by
      rintro t ⟨u, rfl⟩ ht
      rw [List.getLast?_append, ih ht]
      rfl
    cases g with
    | any =>
      obtain ⟨t, ht, hacc⟩ := (accepts_any _ s).mp h
      exact hrest t ht hacc
    | one =>
      rcases s with _ | ⟨d, s⟩
      · simp [accepts] at h
      · exact hrest s (List.suffix_cons d s) (by simpa [accepts] using h)
    | lit a =>
      rcases s with _ | ⟨d, s⟩
      · simp [accepts] at h
      · refine hrest s (List.suffix_cons d s) ?_
        rw [List.cons_append, accepts, Bool.and_eq_true] at h
        exact h.2
    | set neg rs =>
      rcases s with _ | ⟨d, s⟩
      · simp [accepts] at h
      · refine hrest s (List.suffix_cons d s) ?_
        rw [List.cons_append, accepts, Bool.and_eq_true] at h
        exact h.2

/-- What matches a pattern that ends in an ordinary character ends in it too. -/
theorem getLast?_of_accepts {c : Char} (hc : plainChar c = true) (hb : c ≠ ']') {p s : Str}
    (h : accepts (parse (p ++ [c])) s = true) : s.getLast? = some c := by
  obtain ⟨ps, hps⟩ := parseAux_concat hc hb (n := (p ++ [c]).length) (s := p) (by simp)
  rw [parse, hps] at h
  exact accepts_concat h

/-- What a character of a pattern without brackets and backslashes stands for. -/
def simple (c : Char) : Glob := if c = '*' then any else if c = '?' then one else lit c

/-- A text without brackets and backslashes. -/
def bracketFree (s : Str) : Bool := s.all fun c ↦ c != '[' && c != '\\'

theorem parse_append_of_bracketFree {s : Str} (h : bracketFree s = true) (t : Str) :
    parse (s ++ t) = s.map simple ++ parse t := by
  rw [parse, parse]
  induction s with
  | nil => rfl
  | cons c s ih =>
    rw [bracketFree, List.all_cons, Bool.and_eq_true] at h
    obtain ⟨hc, hs⟩ := h
    simp only [Bool.and_eq_true, bne_iff_ne, ne_eq] at hc
    rw [List.cons_append, List.length_cons, parseAux, ih hs, List.map_cons,
      List.cons_append, simple]
    split
    · rfl
    · split
      · rfl
      · rw [if_neg hc.2, if_neg hc.1]

/-- Such a text matches itself, even if there are asterisks and question marks in it. -/
theorem accepts_self_append {s : Str} (ps : List Glob) {t : Str} (h : accepts ps t = true) :
    accepts (s.map simple ++ ps) (s ++ t) = true := by
  induction s with
  | nil => exact h
  | cons c s ih =>
    rw [List.map_cons, List.cons_append, List.cons_append, simple]
    split
    · exact (accepts_any _ _).mpr ⟨s ++ t, List.suffix_cons c _, ih⟩
    · split
      · exact ih
      · rw [accepts, Bool.and_eq_true]
        exact ⟨beq_self_eq_true c, ih⟩

theorem accepts_star_lit_star {s t : Str} (hs : plain s = true) :
    accepts (parse ('*' :: (s ++ ['*']))) t = true ↔ s <:+: t := by
  have hstar : parse ['*'] = [.any] := rfl
  have hparse : parse ('*' :: (s ++ ['*'])) = .any :: (s.map .lit ++ [.any]) := by
    rw [← hstar, ← parse_append_of_plain hs]
    simp [parse, parseAux]
  rw [hparse, accepts_any]
  constructor
  · rintro ⟨u, ⟨v, rfl⟩, hu⟩
    obtain ⟨w, rfl, -⟩ := (accepts_lit_append s _ u).mp hu
    exact ⟨v, w, by simp⟩
  · rintro ⟨v, w, rfl⟩
    refine ⟨s ++ w, ⟨v, by simp⟩, (accepts_lit_append s _ _).mpr ⟨w, rfl, ?_⟩⟩
    exact (accepts_any [] w).mpr ⟨[], List.nil_suffix, rfl⟩

theorem accepts_lit_star {s t : Str} (hs : plain s = true) :
    accepts (parse (s ++ ['*'])) t = true ↔ s <+: t := by
  rw [parse_append_of_plain hs, accepts_lit_append]
  constructor
  · rintro ⟨u, rfl, -⟩
    exact List.prefix_append s u
  · rintro ⟨u, rfl⟩
    exact ⟨u, rfl, (accepts_any [] u).mpr ⟨[], List.nil_suffix, rfl⟩⟩

theorem accepts_star_lit {s t : Str} (hs : plain s = true) :
    accepts (parse ('*' :: s)) t = true ↔ s <:+ t := by
  have hparse : parse ('*' :: s) = any :: s.map lit := by
    rw [← parse_of_plain hs]
    simp [parse, parseAux]
  rw [hparse, accepts_any]
  constructor
  · rintro ⟨u, hu, hacc⟩
    rw [← parse_of_plain hs, accepts_of_plain hs] at hacc
    rwa [← hacc]
  · intro h
    refine ⟨s, h, ?_⟩
    rw [← parse_of_plain hs, accepts_of_plain hs]

end Glob

/-- `${s%p}`: without the shortest ending that matches the pattern. -/
def trimShortest (p s : Str) : Str :=
  match s.tails.reverse.find? (Glob.accepts (Glob.parse p)) with
  | some t => s.take (s.length - t.length)
  | none => s

/-- `${s##p}`: without the longest beginning that matches the pattern. -/
def dropLongest (p s : Str) : Str :=
  match s.inits.reverse.find? (Glob.accepts (Glob.parse p)) with
  | some t => s.drop t.length
  | none => s

/-- The shortest ending with a property, if it has no shorter one. -/
theorem find?_tails_reverse {f : Str → Bool} {w : Str} (hw : f w = true)
    (hno : ∀ t, t <:+ w → t ≠ w → f t = false) (x : Str) :
    (x ++ w).tails.reverse.find? f = some w := by
  induction x with
  | nil =>
    rcases w with _ | ⟨c, w⟩
    · simpa using hw
    · have hnone : w.tails.reverse.find? f = none := by
        rw [List.find?_eq_none]
        intro t ht
        have hsuf : t <:+ w := by simpa using ht
        rw [hno t (hsuf.trans (List.suffix_cons c w)) ?_]
        · simp
        · rintro rfl
          exact absurd hsuf.length_le (by simp)
      rw [List.nil_append, List.tails_cons, List.reverse_cons, List.find?_append, hnone,
        Option.none_or, List.find?_singleton, if_pos hw]
  | cons c x ih =>
    rw [List.cons_append, List.tails_cons, List.reverse_cons, List.find?_append, ih,
      Option.some_or]

theorem inits_concat (s : Str) (c : Char) : (s ++ [c]).inits = s.inits ++ [s ++ [c]] := by
  rw [List.inits_append]
  rfl

/-- The longest beginning with a property, if it has no longer one. -/
theorem find?_inits_reverse {f : Str → Bool} {w y : Str} (hw : f w = true)
    (hno : ∀ t, t <+: y → t ≠ [] → f (w ++ t) = false) :
    (w ++ y).inits.reverse.find? f = some w := by
  induction y using List.reverseRecOn with
  | nil =>
    rw [List.append_nil]
    rcases w.eq_nil_or_concat with rfl | ⟨w', c, rfl⟩
    · simpa using hw
    · rw [List.concat_eq_append] at hw ⊢
      rw [inits_concat, List.reverse_concat, List.find?_cons, hw]
  | append_singleton y c ih =>
    have hlast : f (w ++ y ++ [c]) = false := by
      rw [List.append_assoc]
      exact hno _ (List.prefix_refl _) (by simp)
    rw [← List.append_assoc, inits_concat, List.reverse_concat, List.find?_cons, hlast]
    exact ih fun t ht ↦ hno t (ht.trans (List.prefix_append y [c]))

/-- `${s%cp*}` where the character `c` is in `s` only once. -/
theorem trimShortest_append {c : Char} {p x y : Str} (hp : Glob.plain (c :: p) = true)
    (hcp : c ∉ p) (hcy : c ∉ y) : trimShortest (c :: p ++ ['*']) (x ++ (c :: p ++ y)) = x := by
  have hfind := find?_tails_reverse (f := Glob.accepts (Glob.parse (c :: p ++ ['*'])))
    (w := c :: p ++ y) ((Glob.accepts_lit_star hp).mpr (List.prefix_append _ _)) ?_ x
  · rw [trimShortest, hfind]
    simp
  · intro t ht hne
    rw [Bool.eq_false_iff, Ne, Glob.accepts_lit_star hp]
    rintro ⟨u, rfl⟩
    rcases List.suffix_cons_iff.mp ht with h | h
    · exact hne h
    · exact List.mem_append.not.mpr (not_or.mpr ⟨hcp, hcy⟩) (h.mem List.mem_cons_self)

/-- `${s##*pc}` where the character `c` is not in what is left. -/
theorem dropLongest_append {c : Char} {p x y : Str} (hp : Glob.plain (p ++ [c]) = true)
    (hcy : c ∉ y) : dropLongest ('*' :: (p ++ [c])) (x ++ (p ++ [c]) ++ y) = y := by
  have hfind := find?_inits_reverse (f := Glob.accepts (Glob.parse ('*' :: (p ++ [c]))))
    (w := x ++ (p ++ [c])) (y := y) ((Glob.accepts_star_lit hp).mpr (List.suffix_append _ _)) ?_
  · rw [dropLongest, hfind]
    simp
  · intro t ht hne
    rw [Bool.eq_false_iff, Ne, Glob.accepts_star_lit hp]
    intro hsuf
    have hlast := List.IsSuffix.getLast hsuf (by simp)
    rw [List.getLast_append_of_ne_nil _ hne, List.getLast_concat] at hlast
    exact hcy (ht.mem (hlast ▸ List.getLast_mem hne))

end Shell
