import OpenwrtFeed.Lib.Shell

/-!
# Editing assignments line by line

Scripts that change a makefile do it with `sed`, one line at a time: replace the lines that match a
pattern, delete them, or append a line behind them.  The patterns are of two kinds, `^KEY[:?]?=` and
`^KEY:=`, and what is written is always `KEY:=value`.

A line is taken for an assignment by what stands in front of its first `:`, `?` or `=` (`keyOf`), so
two patterns with different keys never match the same line, and the lemmas about one key need only
know that another key is a different word.

`make` knows more forms of an assignment than these patterns (`makeAssign`), and the lines that the
edit does not see count, too, if they come behind the ones that it writes.  `Settles` says when a
key that is written has its new value in the end.
-/

set_option autoImplicit false

namespace Assignments

open Shell

/-- One line of a file. -/
abbrev Line := Str

/-- The value of a line that matches `^KEY[:?]?=`. -/
def assigned (key : Str) (l : Line) : Option Str :=
  if key <+: l then
    match l.drop key.length with
    | ':' :: '=' :: v => some v
    | '?' :: '=' :: v => some v
    | '=' :: v => some v
    | _ => none
  else none

/-- The value of a line that matches `^KEY:=`. -/
def assignedNow (key : Str) (l : Line) : Option Str :=
  if key ++ [':', '='] <+: l then some (l.drop (key.length + 2)) else none

/-- The line `KEY:=value`. -/
def setLine (key value : Str) : Line := key ++ ':' :: '=' :: value

/-- `sed 's|^KEY….*|new|'`, with `p` for the lines that match. -/
def replace (p : Line → Bool) (new : Line) (ls : List Line) : List Line :=
  ls.map fun l ↦ if p l then new else l

/-- `sed '/^KEY…/a new'`. -/
def appendAfter (p : Line → Bool) (new : Line) (ls : List Line) : List Line :=
  ls.flatMap fun l ↦ if p l then [l, new] else [l]

/-- `sed '/^KEY…/d'`. -/
def delete (p : Line → Bool) (ls : List Line) : List Line := ls.filter fun l ↦ !p l

/-- Whether a line assigns something. -/
def hasLine (read : Line → Option Str) (ls : List Line) : Bool := ls.any fun l ↦ (read l).isSome

/-- Replaces the lines that `read` reads, or else appends one behind those that `anchor` reads. -/
def setOrAppend (read anchor : Line → Option Str) (new : Line) (ls : List Line) : List Line :=
  if hasLine read ls then replace (fun l ↦ (read l).isSome) new ls
  else appendAfter (fun l ↦ (anchor l).isSome) new ls

/-! ## What `make` reads -/

/-- What an assignment does to a variable. -/
inductive Assign where
  /-- `=`, `:=` or `::=` -/
  | set (v : Str)
  /-- `?=` -/
  | ifUnset (v : Str)
  /-- `+=` -/
  | append (v : Str)
  deriving DecidableEq, Repr

def Assign.apply : Assign → Option Str → Option Str
  | .set v, _ => some v
  | .ifUnset v, none => some v
  | .ifUnset _, some u => some u
  | .append v, none => some v
  | .append v, some u => some (if u = [] then v else u ++ ' ' :: v)

/-- The operator of an assignment, and the value behind it. -/
def operator : Str → Option Assign
  | '=' :: v => some (.set (v.dropWhile isBlank))
  | ':' :: '=' :: v => some (.set (v.dropWhile isBlank))
  | ':' :: ':' :: '=' :: v => some (.set (v.dropWhile isBlank))
  | '?' :: '=' :: v => some (.ifUnset (v.dropWhile isBlank))
  | '+' :: '=' :: v => some (.append (v.dropWhile isBlank))
  | _ => none

/-- A line that assigns to the key, for `make`.  There may be blanks around the key, but a tab at
the start of a line is for recipes. -/
def makeAssign (key : Str) (l : Line) : Option Assign :=
  let l := l.dropWhile (· = ' ')
  if key <+: l then operator ((l.drop key.length).dropWhile isBlank) else none

/-- The value of a key behind some lines, when it had the value `start` before them. -/
def makeReads (key : Str) (start : Option Str) (ls : List Line) : Option Str :=
  (ls.filterMap (makeAssign key)).foldl (fun u a ↦ a.apply u) start

/-- The lines behind the last one with `p`. -/
def behindLast (p : Line → Bool) : List Line → Option (List Line)
  | [] => none
  | l :: ls => (behindLast p ls).or (if p l then some ls else none)

/-- What follows the last of the lines with `p` leaves the key at `v`, or there are no such lines
and the key has this value anyway. -/
def Settles (p : Line → Bool) (key v : Str) (ls : List Line) : Prop :=
  match behindLast p ls with
  | some rest => makeReads key (some v) rest = some v
  | none => makeReads key none ls = some v

instance (p : Line → Bool) (key v : Str) (ls : List Line) : Decidable (Settles p key v ls) := by
  unfold Settles
  exact match behindLast p ls with
  | some _ => inferInstance
  | none => inferInstance

/-- The lines that `setOrAppend` writes to, or behind. -/
def places (read anchor : Line → Option Str) (ls : List Line) (l : Line) : Bool :=
  if hasLine read ls then (read l).isSome else (anchor l).isSome

/-! ## Keys -/

/-- A character that ends the key of an assignment. -/
def endsKey (c : Char) : Bool := c = ':' || c = '?' || c = '='

/-- What stands in front of the first such character. -/
def keyOf (l : Line) : Str := l.takeWhile fun c ↦ !endsKey c

/-- A character of a key. -/
def isKeyChar (c : Char) : Bool := !endsKey c && !isBlank c && c ≠ '+'

/-- A word that can be a key. -/
def plainKey (key : Str) : Bool := key.all isKeyChar

theorem isKeyChar_of_mem {key : Str} (hkey : plainKey key = true) {c : Char} (hc : c ∈ key) :
    endsKey c = false ∧ isBlank c = false ∧ c ≠ '+' := by
  have hchar := List.all_eq_true.1 hkey c hc
  simpa [isKeyChar, and_assoc] using hchar

theorem keyOf_append {key : Str} (hkey : plainKey key = true) {c : Char} (hc : endsKey c = true)
    (l : Line) : keyOf (key ++ c :: l) = key := by
  rw [keyOf, List.takeWhile_append_of_pos fun x hx ↦ by simp [(isKeyChar_of_mem hkey hx).1],
    List.takeWhile_cons_of_neg (by simp [hc]), List.append_nil]

/-- A line that assigns a key has that key. -/
theorem keyOf_of_assigned {key : Str} (hkey : plainKey key = true) {l : Line} {v : Str}
    (h : assigned key l = some v) : keyOf l = key := by
  rw [assigned] at h
  split at h
  · rename_i hpre
    obtain ⟨rest, rfl⟩ := hpre
    rw [List.drop_left] at h
    split at h
    · exact keyOf_append hkey rfl _
    · exact keyOf_append hkey rfl _
    · exact keyOf_append hkey rfl _
    · exact absurd h (by simp)
  · exact absurd h (by simp)

theorem keyOf_of_assignedNow {key : Str} (hkey : plainKey key = true) {l : Line} {v : Str}
    (h : assignedNow key l = some v) : keyOf l = key := by
  rw [assignedNow] at h
  split at h
  · rename_i hpre
    obtain ⟨rest, rfl⟩ := hpre
    rw [List.append_assoc]
    exact keyOf_append hkey rfl _
  · exact absurd h (by simp)

@[simp] theorem assigned_setLine (key v : Str) : assigned key (setLine key v) = some v := by
  rw [assigned, setLine, if_pos (List.prefix_append _ _), List.drop_left]
  rfl

/-- `^KEY:=` is one of the forms of `^KEY[:?]?=`. -/
theorem assigned_of_assignedNow {key : Str} {l : Line} {v : Str} (h : assignedNow key l = some v) :
    assigned key l = some v := by
  rw [assignedNow] at h
  split at h
  · rename_i hpre
    obtain ⟨rest, rfl⟩ := hpre
    have hline : key ++ [':', '='] ++ rest = setLine key rest := by simp [setLine]
    rw [List.drop_left' (by simp)] at h
    rw [hline, assigned_setLine, h]
  · exact absurd h (by simp)

/-- `read` looks for assignments to one key only. -/
def Reads (key : Str) (read : Line → Option Str) : Prop := ∀ l v, read l = some v → keyOf l = key

theorem reads_assigned {key : Str} (hkey : plainKey key = true) : Reads key (assigned key) :=
  fun _ _ h ↦ keyOf_of_assigned hkey h

theorem reads_assignedNow {key : Str} (hkey : plainKey key = true) : Reads key (assignedNow key) :=
  fun _ _ h ↦ keyOf_of_assignedNow hkey h

/-- A line with another key assigns nothing to this one. -/
theorem Reads.eq_none {key : Str} {read : Line → Option Str} (h : Reads key read) {l : Line}
    (hl : keyOf l ≠ key) : read l = none := by
  rcases hv : read l with _ | v
  · rfl
  · exact absurd (h l v hv) hl

/-- No line assigns to two keys. -/
theorem Reads.disjoint {key key' : Str} {read read' : Line → Option Str} (h : Reads key read)
    (h' : Reads key' read') (hne : key ≠ key') {l : Line} (hl : (read l).isSome = true) :
    read' l = none := by
  obtain ⟨v, hv⟩ := Option.isSome_iff_exists.1 hl
  exact h'.eq_none (by rw [h l v hv]; exact hne)

/-! ## What an edit leaves alone

`f` is anything that is read off the lines one by one, and sees nothing in the lines that the edit
touches. -/

section
variable {β : Type} {f : Line → Option β} {p : Line → Bool} {new : Line}

theorem filterMap_replace (hp : ∀ l, p l = true → f l = none) (hnew : f new = none)
    (ls : List Line) :
    (replace p new ls).filterMap f = ls.filterMap f := by
  rw [replace, List.filterMap_map]
  congr 1
  funext l
  rw [Function.comp_apply]
  split
  · rename_i hl
    rw [hnew, hp l hl]
  · rfl

theorem filterMap_delete (hp : ∀ l, p l = true → f l = none) (ls : List Line) :
    (delete p ls).filterMap f = ls.filterMap f := by
  rw [delete, List.filterMap_filter]
  congr 1
  funext l
  split
  · rfl
  · rename_i hl
    exact (hp l (by simpa using hl)).symm

theorem filterMap_appendAfter (hnew : f new = none) (ls : List Line) :
    (appendAfter p new ls).filterMap f = ls.filterMap f := by
  induction ls with
  | nil => rfl
  | cons l ls ih =>
    rw [appendAfter, List.flatMap_cons, List.filterMap_append, ← appendAfter, ih]
    split
    · simp only [List.filterMap_cons, hnew, List.filterMap_nil]
      cases f l <;> rfl
    · simp only [List.filterMap_cons, List.filterMap_nil]
      cases f l <;> rfl

theorem filterMap_setOrAppend {read anchor : Line → Option Str}
    (hp : ∀ l, (read l).isSome = true → f l = none) (hnew : f new = none) (ls : List Line) :
    (setOrAppend read anchor new ls).filterMap f = ls.filterMap f := by
  rw [setOrAppend]
  split
  · exact filterMap_replace hp hnew ls
  · exact filterMap_appendAfter hnew ls

end

/-! ## Reading back -/

section
variable {read : Line → Option Str}

theorem hasLine_eq (ls : List Line) : hasLine read ls = !(ls.filterMap read).isEmpty := by
  induction ls with
  | nil => rfl
  | cons l ls ih =>
    rw [hasLine, List.any_cons, ← hasLine, ih, List.filterMap_cons]
    cases read l <;> rfl

theorem hasLine_congr {ls ls' : List Line} (h : ls'.filterMap read = ls.filterMap read) :
    hasLine read ls' = hasLine read ls := by
  rw [hasLine_eq, h, hasLine_eq]

end

/-- An edit that leaves the assignments to a key alone does not change what `make` reads. -/
theorem makeReads_congr {key : Str} {ls ls' : List Line}
    (h : ls'.filterMap (makeAssign key) = ls.filterMap (makeAssign key)) (start : Option Str) :
    makeReads key start ls' = makeReads key start ls := by
  rw [makeReads, h, makeReads]

/-- A text that does not begin with a blank. -/
def Unindented (v : Str) : Prop := v.dropWhile isBlank = v

theorem drop_spaces {key : Str} (hkey : plainKey key = true) {c : Char} (hc : endsKey c = true)
    (v : Str) : (key ++ c :: v).dropWhile (· = ' ') = key ++ c :: v := by
  have hends : c ≠ ' ' := by
    rintro rfl
    exact absurd hc (by decide)
  cases key with
  | nil => simp [hends]
  | cons a key =>
    have ha : a ≠ ' ' := by
      rintro rfl
      exact absurd (isKeyChar_of_mem hkey List.mem_cons_self).2.1 (by decide)
    simp [ha]

theorem makeAssign_setLine {key v : Str} (hkey : plainKey key = true) (hv : Unindented v) :
    makeAssign key (setLine key v) = some (.set v) := by
  rw [makeAssign, setLine, drop_spaces hkey (by decide), if_pos (List.prefix_append _ _),
    List.drop_left]
  show some (Assign.set (v.dropWhile isBlank)) = _
  rw [hv]

theorem operator_eq_none {c : Char} (h : endsKey c = false) (hc : c ≠ '+') (s : Str) :
    operator (c :: s) = none := by
  have hne : c ≠ ':' ∧ c ≠ '?' ∧ c ≠ '=' := by simpa [endsKey, and_assoc] using h
  rw [operator]
  · exact fun _ heq ↦ hne.2.2 (List.cons.inj heq).1
  · exact fun _ heq ↦ hne.1 (List.cons.inj heq).1
  · exact fun _ heq ↦ hne.1 (List.cons.inj heq).1
  · exact fun _ heq ↦ hne.2.1 (List.cons.inj heq).1
  · exact fun _ heq ↦ hc (List.cons.inj heq).1

/-- A line that `^KEY[:?]?=` matches is no assignment to another key for `make` either. -/
theorem makeAssign_eq_none {key key' : Str} (hkey : plainKey key = true)
    (hkey' : plainKey key' = true) (hne : key ≠ key') {l : Line}
    (hl : (assigned key l).isSome = true) : makeAssign key' l = none := by
  obtain ⟨c, v, hc, rfl⟩ : ∃ c v, endsKey c = true ∧ l = key ++ c :: v := by
    rw [assigned] at hl
    split at hl
    · rename_i hpre
      obtain ⟨rest, rfl⟩ := hpre
      rw [List.drop_left] at hl
      split at hl
      · exact ⟨':', _, rfl, rfl⟩
      · exact ⟨'?', _, rfl, rfl⟩
      · exact ⟨'=', _, rfl, rfl⟩
      · exact absurd hl (by simp)
    · exact absurd hl (by simp)
  rw [makeAssign, drop_spaces hkey hc]
  split
  · rename_i hpre
    -- the other key is a beginning of this one, so another letter follows it
    obtain ⟨d, r, rfl⟩ : ∃ d r, key = key' ++ d :: r := by
      rcases List.prefix_or_prefix_of_prefix hpre (List.prefix_append key (c :: v)) with h | h
      · obtain ⟨_ | ⟨d, r⟩, rfl⟩ := h
        · exact absurd (List.append_nil _) hne
        · exact ⟨d, r, rfl⟩
      · obtain ⟨_ | ⟨d, r⟩, rfl⟩ := h
        · exact absurd (List.append_nil _).symm hne
        · rw [List.prefix_append_right_inj, List.cons_prefix_cons] at hpre
          have hd := isKeyChar_of_mem hkey' (List.mem_append_right _ List.mem_cons_self)
          rw [hpre.1, hc] at hd
          exact absurd hd.1 (by simp)
    obtain ⟨hends, hblank, hplus⟩ := isKeyChar_of_mem hkey
      (List.mem_append_right _ List.mem_cons_self)
    rw [List.append_assoc, List.drop_left, List.cons_append,
      List.dropWhile_cons_of_neg (by simp [hblank]), operator_eq_none hends hplus]
  · rfl

/-! ## What an edit makes of a key -/

section
variable {p : Line → Bool} {key v : Str} {new : Line}

/-- A line for a key: one that is written (`none`), or an assignment that stays. -/
def mark (p : Line → Bool) (key : Str) (l : Line) : Option (Option Assign) :=
  if p l then some none else (makeAssign key l).map some

/-- The value behind such lines if `v` is written. -/
def readMarks (v : Str) (start : Option Str) (marks : List (Option Assign)) : Option Str :=
  marks.foldl (fun u m ↦ (m.getD (.set v)).apply u) start

theorem behindLast_eq_none {ls : List Line} (h : behindLast p ls = none) :
    ∀ l ∈ ls, p l = false := by
  induction ls with
  | nil => simp
  | cons l ls ih =>
    rw [behindLast, Option.or_eq_none_iff] at h
    rw [List.forall_mem_cons]
    refine ⟨?_, ih h.1⟩
    by_contra hp
    simp [hp] at h

theorem behindLast_eq_some {ls rest : List Line} (h : behindLast p ls = some rest) :
    ∃ pre l, ls = pre ++ l :: rest ∧ p l = true ∧ ∀ l ∈ rest, p l = false := by
  induction ls with
  | nil => simp [behindLast] at h
  | cons l ls ih =>
    rw [behindLast, Option.or_eq_some_iff] at h
    rcases h with h | ⟨hnone, h⟩
    · obtain ⟨pre, l', rfl, hl'⟩ := ih h
      exact ⟨l :: pre, l', rfl, hl'⟩
    · split at h
      · rename_i hp
        obtain rfl := Option.some.inj h
        exact ⟨[], l, rfl, hp, behindLast_eq_none hnone⟩
      · exact absurd h (by simp)

/-- Lines that stay are read as they are. -/
theorem readMarks_of_not {ls : List Line} (h : ∀ l ∈ ls, p l = false) (start : Option Str) :
    readMarks v start (ls.filterMap (mark p key)) = makeReads key start ls := by
  have hmark : ls.filterMap (mark p key) = (ls.filterMap (makeAssign key)).map some := by
    rw [List.map_filterMap]
    refine List.filterMap_congr fun l hl ↦ ?_
    rw [mark, if_neg (by simp [h l hl])]
  rw [readMarks, hmark, List.foldl_map]
  rfl

/-- **When a key that is written keeps its value.** -/
theorem settles_iff (ls : List Line) :
    Settles p key v ls ↔ readMarks v none (ls.filterMap (mark p key)) = some v := by
  rw [Settles]
  split
  · rename_i rest hrest
    obtain ⟨pre, l, rfl, hl, hnot⟩ := behindLast_eq_some hrest
    rw [List.filterMap_append, List.filterMap_cons_some (b := none) (by rw [mark, if_pos hl]),
      readMarks, List.foldl_append, List.foldl_cons]
    have hrest' :
        readMarks v (some v) (rest.filterMap (mark p key)) = makeReads key (some v) rest :=
      readMarks_of_not hnot (some v)
    rw [readMarks] at hrest'
    exact (iff_of_eq (congrArg (· = some v) hrest'.symm))
  · rename_i hnone
    rw [readMarks_of_not (behindLast_eq_none hnone)]

/-- Lines are replaced. -/
theorem makeReads_replace (hnew : makeAssign key new = some (.set v)) (ls : List Line) :
    makeReads key none (replace p new ls) = some v ↔ Settles p key v ls := by
  have hmark : (replace p new ls).filterMap (makeAssign key) =
      (ls.filterMap (mark p key)).map fun m ↦ m.getD (.set v) := by
    rw [replace, List.filterMap_map, List.map_filterMap]
    refine List.filterMap_congr fun l _ ↦ ?_
    rw [Function.comp_apply, mark]
    split
    · exact hnew
    · cases makeAssign key l <;> rfl
  rw [settles_iff, makeReads, hmark, List.foldl_map]
  rfl

/-- A line is added behind others, which are none of the key. -/
theorem makeReads_appendAfter (hnew : makeAssign key new = some (.set v))
    (hp : ∀ l, p l = true → makeAssign key l = none) (ls : List Line) :
    makeReads key none (appendAfter p new ls) = some v ↔ Settles p key v ls := by
  have hmark : (appendAfter p new ls).filterMap (makeAssign key) =
      (ls.filterMap (mark p key)).map fun m ↦ m.getD (.set v) := by
    induction ls with
    | nil => rfl
    | cons l ls ih =>
      rw [appendAfter, List.flatMap_cons, List.filterMap_append, ← appendAfter, ih,
        List.filterMap_cons, mark]
      split
      · rename_i hl
        simp [hp l hl, hnew]
      · cases ha : makeAssign key l <;> simp [ha]
  rw [settles_iff, makeReads, hmark, List.foldl_map]
  rfl

/-- Replacing or appending. -/
theorem makeReads_setOrAppend {read anchor : Line → Option Str}
    (hnew : makeAssign key new = some (.set v))
    (hanchor : ∀ l, (anchor l).isSome = true → makeAssign key l = none) (ls : List Line) :
    makeReads key none (setOrAppend read anchor new ls) = some v ↔
      Settles (places read anchor ls) key v ls := by
  rw [setOrAppend]
  split
  · rename_i hline
    rw [makeReads_replace hnew, show places read anchor ls = fun l ↦ (read l).isSome from
      funext fun _ ↦ if_pos hline]
  · rename_i hline
    rw [makeReads_appendAfter hnew hanchor, show places read anchor ls = fun l ↦ (anchor l).isSome
      from funext fun _ ↦ if_neg hline]

end

end Assignments
