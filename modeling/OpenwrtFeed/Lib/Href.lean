import OpenwrtFeed.Lib.Shell

/-!
# Relative references

A link on a page is read against the directory the page is in.  `resolve base href` follows the
segments of a reference one by one: `.` and an empty segment stay, `..` goes up, anything else goes
down.  It fails on a reference that leaves the tree, be it through too many `..` or with a slash in
front.

The lemmas say where the references lead that programs write: a path of ordinary segments, with or
without a slash at its end (`resolve_segments`, `resolve_slash`), and a number of `../`
(`resolve_up`).
-/

set_option autoImplicit false

namespace Href

open Shell

def dot : Str := ['.']
def dotdot : Str := ['.', '.']

/-- One segment. -/
def step (q : List Str) (c : Str) : Option (List Str) :=
  if c = [] ∨ c = dot then some q
  else if c = dotdot then if q = [] then none else some q.dropLast
  else some (q ++ [c])

/-- The path a reference leads to from a page in the directory `base`. -/
def resolve (base : List Str) (href : Str) : Option (List Str) :=
  if href.head? = some '/' then none else (href.splitOn '/').foldlM step base

/-- There is no scheme in front. -/
def isRelative (href : Str) : Bool := decide (':' ∉ beforeFirst '/' href)

/-- A segment that goes down. -/
def Segment (c : Str) : Prop := c ≠ [] ∧ c ≠ dot ∧ c ≠ dotdot ∧ '/' ∉ c

instance (c : Str) : Decidable (Segment c) :=
  inferInstanceAs (Decidable (c ≠ [] ∧ c ≠ dot ∧ c ≠ dotdot ∧ '/' ∉ c))

theorem Segment.step {c : Str} (h : Segment c) (q : List Str) : step q c = some (q ++ [c]) := by
  rw [Href.step, if_neg (not_or.mpr ⟨h.1, h.2.1⟩), if_neg h.2.2.1]

theorem foldlM_segments {p : List Str} (h : ∀ c ∈ p, Segment c) (q : List Str) :
    p.foldlM step q = some (q ++ p) := by
  induction p generalizing q with
  | nil => rw [List.append_nil]; rfl
  | cons c p ih =>
    obtain ⟨hc, hp⟩ := List.forall_mem_cons.mp h
    rw [List.foldlM_cons, hc.step, Option.bind_eq_bind, Option.bind_some, ih hp, List.append_assoc,
      List.singleton_append]

/-- A reference that begins with a segment does not begin with a slash. -/
theorem head?_intercalate {c : Str} (hc : c ≠ []) (hs : '/' ∉ c) (p : List Str) :
    (['/'].intercalate (c :: p)).head? ≠ some '/' := by
  obtain ⟨x, s, rfl⟩ := List.exists_cons_of_ne_nil hc
  have hx : x ≠ '/' := by
    rintro rfl
    exact hs List.mem_cons_self
  cases p with
  | nil =>
    rw [List.intercalate_singleton]
    simpa using hx
  | cons c' p =>
    rw [List.intercalate_cons_of_ne_nil (List.cons_ne_nil _ _)]
    simpa using hx

/-- The segments of a reference are followed in turn. -/
theorem resolve_intercalate {c : Str} {p : List Str} (hc : c ≠ []) (h : ∀ s ∈ c :: p, '/' ∉ s)
    (base : List Str) :
    resolve base (['/'].intercalate (c :: p)) = (c :: p).foldlM step base := by
  rw [resolve, if_neg (head?_intercalate hc (h c List.mem_cons_self) p),
    List.splitOn_intercalate _ h (List.cons_ne_nil _ _)]

theorem intercalate_slash {p : List Str} (h : p ≠ []) :
    ['/'].intercalate p ++ ['/'] = ['/'].intercalate (p ++ [[]]) := by
  induction p with
  | nil => exact absurd rfl h
  | cons c p ih =>
    cases p with
    | nil =>
      rw [List.intercalate_singleton, List.singleton_append,
        List.intercalate_cons_of_ne_nil (List.cons_ne_nil _ _), List.intercalate_singleton,
        List.append_nil]
    | cons c' p =>
      have hrest : c' :: p ++ [[]] ≠ [] := by simp
      rw [List.cons_append, List.intercalate_cons_of_ne_nil hrest, ← ih (List.cons_ne_nil _ _),
        List.intercalate_cons_of_ne_nil (List.cons_ne_nil c' p), List.append_assoc]

/-- A path ends like its last segment. -/
theorem getLast?_intercalate {p : List Str} {c : Str} (hc : c ≠ []) :
    (['/'].intercalate (p ++ [c])).getLast? = c.getLast? := by
  induction p with
  | nil => rw [List.nil_append, List.intercalate_singleton]
  | cons c' p ih =>
    have hrest : p ++ [c] ≠ [] := by simp
    have hne : ['/'].intercalate (p ++ [c]) ≠ [] := by
      intro hnil
      rw [hnil] at ih
      exact hc (List.getLast?_eq_none_iff.mp ih.symm)
    rw [List.cons_append, List.intercalate_cons_of_ne_nil hrest,
      List.getLast?_append_of_ne_nil _ hne, ih]

theorem Segment.getLast? {c : Str} (h : Segment c) : c.getLast? ≠ some '/' := fun hc ↦
  h.2.2.2 (List.mem_of_getLast? hc)

/-- A path leads where it says. -/
theorem resolve_segments {p : List Str} (hne : p ≠ []) (h : ∀ c ∈ p, Segment c) (base : List Str) :
    resolve base (['/'].intercalate p) = some (base ++ p) := by
  obtain ⟨c, p, rfl⟩ := List.exists_cons_of_ne_nil hne
  rw [resolve_intercalate (h c List.mem_cons_self).1 fun s hs ↦ (h s hs).2.2.2,
    foldlM_segments h]

/-- So it does with a slash at its end. -/
theorem resolve_slash {p : List Str} (hne : p ≠ []) (h : ∀ c ∈ p, Segment c) (base : List Str) :
    resolve base (['/'].intercalate p ++ ['/']) = some (base ++ p) := by
  rw [intercalate_slash hne]
  obtain ⟨c, p, rfl⟩ := List.exists_cons_of_ne_nil hne
  rw [List.cons_append, resolve_intercalate (h c List.mem_cons_self).1, ← List.cons_append,
    List.foldlM_append, foldlM_segments h]
  · rfl
  · intro s hs
    rw [← List.cons_append] at hs
    rcases List.mem_append.mp hs with hs | hs
    · exact (h s hs).2.2.2
    · rw [List.mem_singleton.mp hs]
      exact List.not_mem_nil

theorem resolve_segment {c : Str} (h : Segment c) (base : List Str) :
    resolve base c = some (base ++ [c]) := by
  have hres := resolve_segments (List.cons_ne_nil c []) (List.forall_mem_singleton.mpr h) base
  rwa [List.intercalate_singleton] at hres

theorem resolve_segment_slash {c : Str} (h : Segment c) (base : List Str) :
    resolve base (c ++ ['/']) = some (base ++ [c]) := by
  have hres := resolve_slash (List.cons_ne_nil c []) (List.forall_mem_singleton.mpr h) base
  rwa [List.intercalate_singleton] at hres

theorem foldlM_dotdot (base : List Str) {n : Nat} (h : n ≤ base.length) :
    (List.replicate n dotdot).foldlM step base = some (base.take (base.length - n)) := by
  induction n generalizing base with
  | zero => rw [Nat.sub_zero, List.take_length]; rfl
  | succ n ih =>
    have hne : base ≠ [] := by
      rintro rfl
      simp at h
    have hup : step base dotdot = some base.dropLast := by
      rw [step, if_neg (by decide), if_pos rfl, if_neg hne]
    have hlen : base.dropLast.length = base.length - 1 := List.length_dropLast
    rw [List.replicate_succ, List.foldlM_cons, hup, Option.bind_eq_bind, Option.bind_some,
      ih _ (by omega), List.dropLast_eq_take, List.take_take, List.length_take]
    congr 2
    omega

theorem flatten_dotdot (n : Nat) :
    (List.replicate (n + 1) (dotdot ++ ['/'])).flatten =
      ['/'].intercalate (List.replicate (n + 1) dotdot ++ [[]]) := by
  rw [← intercalate_slash (by simp)]
  induction n with
  | zero => rfl
  | succ n ih =>
    have hrest : List.replicate (n + 1) dotdot ≠ [] := by simp
    have hsucc : List.replicate (n + 1 + 1) dotdot = dotdot :: List.replicate (n + 1) dotdot :=
      List.replicate_succ
    rw [List.replicate_succ, List.flatten_cons, ih, hsucc,
      List.intercalate_cons_of_ne_nil hrest, List.append_assoc, List.append_assoc,
      List.append_assoc]

/-- A number of `../` leads up as many levels. -/
theorem resolve_up (base : List Str) {n : Nat} (h : n + 1 ≤ base.length) :
    resolve base (List.replicate (n + 1) (dotdot ++ ['/'])).flatten =
      some (base.take (base.length - (n + 1))) := by
  have hslash : ∀ s ∈ dotdot :: (List.replicate n dotdot ++ [[]]), '/' ∉ s := by
    intro s hs
    rw [← List.cons_append, ← List.replicate_succ] at hs
    rcases List.mem_append.mp hs with hs | hs
    · rw [List.eq_of_mem_replicate hs]
      decide
    · rw [List.mem_singleton.mp hs]
      exact List.not_mem_nil
  rw [flatten_dotdot, List.replicate_succ, List.cons_append, resolve_intercalate (by decide) hslash,
    ← List.cons_append, ← List.replicate_succ, List.foldlM_append, foldlM_dotdot base h]
  rfl

end Href
