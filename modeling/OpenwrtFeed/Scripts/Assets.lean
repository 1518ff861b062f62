import OpenwrtFeed.Feed.Rollback
import OpenwrtFeed.Lib.Dotted
import OpenwrtFeed.Lib.Tree

/-!
# The files of a release

`release-assets.sh` uploads what a release produced to its GitHub release.  GitHub refuses a file
whose name is taken, so that the script asks for the list of the files that are there, finds in it
the number of the file of the same name, and deletes that file before it uploads the new one: "a
re-run replaces instead of failing on a duplicate name".

The list is read line by line.  A number stands before the name it belongs to, and more numbers
follow, so the scan keeps the last one it has seen; `scan_listing` says that this finds the right
file.  The list is asked for once, and GitHub answers with one page of at most 100 files.  A file
beyond the first page is not seen: its name is taken, nothing is deleted, and the upload ends the
script.  `replaces_iff` says that nothing else can go wrong.
-/

set_option autoImplicit false

namespace OpenwrtFeed.Assets

open Shell DirTree

variable {β : Type}

/-! ## Releases -/

/-- A file of a release. -/
structure Asset (β : Type) where
  id : Nat
  release : Nat
  name : Str
  bytes : β

/-- The files of all releases.  Their numbers are different and are not used again, and no two files
of a release have the same name. -/
structure Store (β : Type) where
  assets : List (Asset β)
  next : Nat
  ids : (assets.map Asset.id).Nodup
  id_lt : ∀ a ∈ assets, a.id < next
  names : (assets.map fun a ↦ (a.release, a.name)).Nodup

namespace Store

/-- The files of a release, in the order in which they are listed. -/
def of (s : Store β) (rid : Nat) : List (Asset β) := s.assets.filter fun a ↦ a.release = rid

/-- `DELETE /releases/assets/id`, which takes a number of any release. -/
def delete (s : Store β) (id : Nat) : Store β where
  assets := s.assets.filter fun a ↦ a.id ≠ id
  next := s.next
  ids := (List.filter_sublist.map _).nodup s.ids
  id_lt := fun a ha ↦ s.id_lt a (List.mem_of_mem_filter ha)
  names := (List.filter_sublist.map _).nodup s.names

/-- `POST /releases/rid/assets?name=name`, which is refused if the name is taken. -/
def add (s : Store β) (rid : Nat) (name : Str) (bytes : β) : Option (Store β) :=
  if h : (rid, name) ∈ s.assets.map fun a ↦ (a.release, a.name) then
    none
  else
    some
      { assets := s.assets ++ [⟨s.next, rid, name, bytes⟩]
        next := s.next + 1
        ids := by
          rw [List.map_append, List.map_singleton, List.nodup_append]
          refine ⟨s.ids, List.nodup_singleton _, fun i hi j hj ↦ ?_⟩
          obtain ⟨a, ha, rfl⟩ := List.mem_map.mp hi
          rw [List.mem_singleton.mp hj]
          exact (s.id_lt a ha).ne
        id_lt := by
          intro a ha
          rcases List.mem_append.mp ha with ha | ha
          · exact Nat.lt_succ_of_lt (s.id_lt a ha)
          · rw [List.mem_singleton.mp ha]
            exact Nat.lt_succ_self _
        names := by
          rw [List.map_append, List.map_singleton, List.nodup_append]
          refine ⟨s.names, List.nodup_singleton _, fun i hi j hj hij ↦ h ?_⟩
          rw [hij, List.mem_singleton.mp hj] at hi
          exact hi }

end Store

/-! ## The scan -/

/-- `match($0, re)` for an expression that is given by the length of its longest match at the
beginning of a text: where the leftmost match starts, counted from 0, and how long it is. -/
def matched (re : Str → Option Nat) : Str → Option (Nat × Nat)
  | [] => (re []).map fun n ↦ (0, n)
  | c :: s =>
    match re (c :: s) with
    | some n => some (0, n)
    | none => (matched re s).map fun m ↦ (m.1 + 1, m.2)

def idKey : Str := ['"', 'i', 'd', '"', ':']
def nameKey : Str := ['"', 'n', 'a', 'm', 'e', '"', ':']

/-- `/"id": *[0-9]+/` -/
def idLength (s : Str) : Option Nat :=
  if idKey <+: s then
    let blanks := ((s.drop 5).takeWhile (· = ' ')).length
    let digits := ((s.drop (5 + blanks)).takeWhile isDigit).length
    if digits = 0 then none else some (5 + blanks + digits)
  else none

/-- `/"name": *"[^"]*"/` -/
def nameLength (s : Str) : Option Nat :=
  if nameKey <+: s then
    let blanks := ((s.drop 7).takeWhile (· = ' ')).length
    match s.drop (7 + blanks) with
    | '"' :: t => if '"' ∈ t then some (7 + blanks + (beforeFirst '"' t).length + 2) else none
    | _ => none
  else none

/-- `id = substr($0, RSTART + 6, RLENGTH - 6); gsub(/[^0-9]/, "", id)` -/
def idText (s : Str) : Option Str :=
  (matched idLength s).map fun m ↦ ((s.drop (m.1 + 6)).take (m.2 - 6)).filter isDigit

/-- `n = substr($0, RSTART + 9, RLENGTH - 10)` -/
def nameText (s : Str) : Option Str :=
  (matched nameLength s).map fun m ↦ (s.drop (m.1 + 9)).take (m.2 - 10)

/-- The awk program: what it prints for the lines that are left, with the number seen last. -/
def scan (want : Str) : Str → List Str → Str
  | _, [] => []
  | id, l :: ls =>
    let id := (idText l).getD id
    if nameText l = some want ∧ id ≠ [] then id else scan want id ls

/-! ## GitHub's list -/

/-- A name that GitHub stores unchanged has no character that is quoted in its answers. -/
def Plain (name : Str) : Prop := ∀ c ∈ name, c ≠ '"' ∧ c ≠ '\\' ∧ ' ' ≤ c

instance (name : Str) : Decidable (Plain name) := List.decidableBAll _ name

/-- The line of a pretty-printed object with the number of a file. -/
def idLine (i : Nat) (a : Asset β) : Str :=
  List.replicate i ' ' ++ (idKey ++ ' ' :: (Nat.toDigits 10 a.id ++ [',']))

/-- The line with its name. -/
def nameLine (i : Nat) (a : Asset β) : Str :=
  List.replicate i ' ' ++ (nameKey ++ ' ' :: '"' :: (a.name ++ ['"', ',']))

/-- How a file is listed: its number, then its name, and possibly more numbers. -/
def Shown (a : Asset β) (ls : List Str) : Prop :=
  ∃ i before between after, ls = before ++ idLine i a :: (between ++ nameLine i a :: after) ∧
    (∀ l ∈ before, nameText l = none) ∧ (∀ l ∈ between, idText l = none ∧ nameText l = none) ∧
    ∀ l ∈ after, nameText l = none

/-- The world around the script. -/
structure Env (β : Type) where
  /-- What `-v` makes of a value.  A backslash quotes there, in more ways than awks agree on. -/
  assigned : Str → Str
  assigned_eq : ∀ s, '\\' ∉ s → assigned s = s
  /-- `zip -r` of a directory with this name, in the container. -/
  zip : Str → Tree Str β → Option β
  /-- How GitHub prints a file. -/
  shown : Asset β → List Str
  shown_spec : ∀ a, Plain a.name → Shown a (shown a)

/-- `per_page` -/
def perPage : Nat := 100

/-- `assets_json`, line by line. -/
def Env.listing (E : Env β) (page : List (Asset β)) : List Str :=
  ['['] :: (page.flatMap E.shown ++ [[']']])

/-! ## Uploads -/

/-- What the script does next. -/
inductive Action (β : Type)
  /-- `upload file name` -/
  | upload (name : Str) (bytes : β)
  /-- `die` -/
  | die (why : Str)
  deriving DecidableEq

/-- One call of `upload`: the files before it, and before the new one is sent. -/
structure Call (β : Type) where
  name : Str
  before : Store β
  sent : Store β

/-- A run of the script. -/
structure Run (β : Type) where
  calls : List (Call β)
  store : Store β
  died : Option Str

/-- `if [ -n "$old" ]; then api -X DELETE …; fi` -/
def removeOld (s : Store β) (old : Str) : Store β := if old = [] then s else s.delete (numeral old)

/-- The uploads one after the other, with the list of files from before the first. -/
def runFrom (E : Env β) (rid : Nat) (json : List Str) : List (Action β) → Store β → Run β
  | [], s => ⟨[], s, none⟩
  | .die why :: _, s => ⟨[], s, some why⟩
  | .upload name bytes :: as, s =>
    let sent := removeOld s (scan (E.assigned name) [] json)
    match sent.add rid name bytes with
    | none => ⟨[⟨name, s, sent⟩], sent, some ("upload of ".toList ++ name ++ " failed".toList)⟩
    | some s' =>
      let r := runFrom E rid json as s'
      ⟨⟨name, s, sent⟩ :: r.calls, r.store, r.died⟩

def run (E : Env β) (rid : Nat) (as : List (Action β)) (s : Store β) : Run β :=
  runFrom E rid (E.listing ((s.of rid).take perPage)) as s

/-! ## What is uploaded -/

def feedApk : Str := "ddimension-feed.apk".toList

/-- `find d … | sort`, for names without line breaks. -/
def find (fs : Tree Str β) (d : List Str) (p : List Str → Bool) : List Str :=
  sorted ((fs.dom.filter fun q ↦ d <+: q ∧ p q = true).image absPath)

/-- `-mindepth n -maxdepth n -type f`, with a test of the name. -/
def fileAt (fs : Tree Str β) (d : List Str) (n : Nat) (name : Str → Bool) (q : List Str) : Bool :=
  q.length == d.length + n && fs.isFile q && (q.getLast?.any name)

def basename (s : Str) : Str := afterLast '/' s
def dirname (s : Str) : Str := beforeLast '/' s

/-- `upload f name` of a file that has been found. -/
def uploadFile (fs : Tree Str β) (f name : Str) : Action β :=
  match fs.read (components f) with
  | some bytes => .upload name bytes
  | none => .die ("upload of ".toList ++ name ++ " failed".toList)

/-- A package tree: the archive, and the package that sets up the feed. -/
def treeActions (E : Env β) (fs : Tree Str β) (adb : Str) : List (Action β) :=
  let tree := stripSuffix "/packages.adb".toList adb
  let arch := afterLast '/' tree
  let rel := afterLast '/' (beforeLast '/' tree)
  match E.zip arch (fs.sub (components tree)) with
  | none => [.die ("packing ".toList ++ rel ++ '/' :: arch ++ " failed".toList)]
  | some bytes =>
    .upload (rel ++ '-' :: arch ++ ".zip".toList) bytes ::
      if fs.isFile (components tree ++ [feedApk]) then
        [uploadFile fs (tree ++ '/' :: feedApk)
          ("ddimension-feed-".toList ++ rel ++ '-' :: arch ++ ".apk".toList)]
      else []

/-- A host tool. -/
def toolAction (fs : Tree Str β) (f : Str) : Action β :=
  uploadFile fs f (basename f ++ '-' :: basename (dirname f) ++ "-static".toList)

/-- A file of an image. -/
def imageAction (fs : Tree Str β) (f : Str) : Action β :=
  let base := basename (dirname f)
  let group := basename (dirname (dirname f))
  if basename f = "sha256sums".toList ∨ ".buildinfo".toList <:+ basename f then
    uploadFile fs f (group ++ '-' :: base ++ '-' :: basename f)
  else uploadFile fs f (base ++ '-' :: basename f)

/-- The files of an image that are uploaded. -/
def isImageFile (n : Str) : Bool :=
  [".bin", ".itb", ".img.gz", ".manifest"].any (fun e ↦ decide (e.toList <:+ n)) ||
    n == "sha256sums".toList

/-- The command line, with the file system it is about. -/
structure Input (β : Type) where
  fs : Tree Str β
  dir : Option (List Str)
  images : Option (List Str)

def notADirectory (d : List Str) : Action β := .die (absPath d ++ " is not a directory".toList)

/-- What is done for `--dir`. -/
def dirActions (E : Env β) (fs : Tree Str β) (d : List Str) : List (Action β) :=
  if fs.isDir d then
    (find fs d fun q ↦ q.getLast? == some "packages.adb".toList).flatMap (treeActions E fs) ++
      if fs.isDir (d ++ ["tools".toList]) then
        (find fs (d ++ ["tools".toList]) (fileAt fs (d ++ ["tools".toList]) 2 fun n ↦
          n != "index.html".toList && n != ".published".toList)).map (toolAction fs)
      else []
  else [notADirectory d]

/-- What is done for `--images`. -/
def imagesActions (fs : Tree Str β) (d : List Str) : List (Action β) :=
  if fs.isDir d then (find fs d (fileAt fs d 3 isImageFile)).map (imageAction fs)
  else [notADirectory d]

/-- The uploads of the script, in order. -/
def Input.actions (E : Env β) (i : Input β) : List (Action β) :=
  i.dir.elim [] (dirActions E i.fs) ++ i.images.elim [] (imagesActions i.fs)

/-- The name and the content of an upload. -/
def Action.upload? : Action β → Option (Str × β)
  | .upload name bytes => some (name, bytes)
  | .die _ => none

/-- What a run uploads. -/
def uploads (as : List (Action β)) : List (Str × β) := as.filterMap Action.upload?

/-- A run replaces: every call deletes the file of the same name and no other, no call is refused,
and in the end there are the new files, and the others as they were. -/
structure Replaces (rid : Nat) (as : List (Action β)) (s : Store β) (r : Run β) : Prop where
  called : r.calls.map Call.name = (uploads as).map Prod.fst
  each : ∀ c ∈ r.calls, c.sent.assets =
    c.before.assets.filter fun a ↦ ¬(a.release = rid ∧ a.name = c.name)
  accepted : r.died = none
  assets : ∃ new : List (Asset β), r.store.assets =
      (s.assets.filter fun a ↦ ¬(a.release = rid ∧ a.name ∈ (uploads as).map Prod.fst)) ++ new ∧
    new.map (fun a ↦ (a.release, a.name, a.bytes)) = (uploads as).map fun u ↦ (rid, u.1, u.2)

/-! ## Reading a line -/

section Match

variable {re : Str → Option Nat}

/-- An expression that begins with a quote is not found before one. -/
theorem matched_skip (hre : ∀ c s, c ≠ '"' → re (c :: s) = none) {s : Str} (hs : '"' ∉ s)
    (t : Str) :
    matched re (s ++ t) = (matched re t).map fun m ↦ (m.1 + s.length, m.2) := by
  induction s with
  | nil => cases h : matched re t <;> simp [h]
  | cons c s ih =>
    obtain ⟨hc, hs⟩ := not_or.mp (mt List.mem_cons.mpr hs)
    rw [List.cons_append, matched, hre c _ (Ne.symm hc), ih hs, Option.map_map]
    simp only [List.length_cons]
    congr 1

/-- What is cut out of a match, neither. -/
theorem matched_text (hre : ∀ c s, c ≠ '"' → re (c :: s) = none) {s : Str} (hs : '"' ∉ s) (t : Str)
    (j k : Nat) : (matched re (s ++ t)).map (fun m ↦ ((s ++ t).drop (m.1 + j)).take (m.2 - k)) =
      (matched re t).map fun m ↦ (t.drop (m.1 + j)).take (m.2 - k) := by
  rw [matched_skip hre hs, Option.map_map]
  congr 1
  funext m
  show ((s ++ t).drop (m.1 + s.length + j)).take (m.2 - k) = _
  rw [show m.1 + s.length + j = s.length + (m.1 + j) by omega, List.drop_length_add_append]

theorem matched_of_notMem (hre : ∀ c s, c ≠ '"' → re (c :: s) = none) (hnil : re [] = none)
    {s : Str} (hs : '"' ∉ s) : matched re s = none := by
  rw [← List.append_nil s, matched_skip hre hs, matched, hnil]
  rfl

theorem matched_self {s : Str} {n : Nat} (h : re s = some n) : matched re s = some (0, n) := by
  cases s with
  | nil => rw [matched, h]; rfl
  | cons c s => rw [matched, h]

theorem matched_cons {c : Char} {s : Str} (h : re (c :: s) = none) :
    matched re (c :: s) = (matched re s).map fun m ↦ (m.1 + 1, m.2) := by
  rw [matched, h]

end Match

theorem idLength_of_ne (c : Char) (s : Str) (h : c ≠ '"') : idLength (c :: s) = none :=
  if_neg fun hc ↦ h (List.cons_prefix_cons.mp hc).1.symm

theorem nameLength_of_ne (c : Char) (s : Str) (h : c ≠ '"') : nameLength (c :: s) = none :=
  if_neg fun hc ↦ h (List.cons_prefix_cons.mp hc).1.symm

theorem quote_notMem_blanks (i : Nat) : '"' ∉ List.replicate i ' ' := fun h ↦
  absurd (List.eq_of_mem_replicate h) (by decide)

theorem idText_skip {s : Str} (hs : '"' ∉ s) (t : Str) : idText (s ++ t) = idText t := by
  have h := congrArg (Option.map (List.filter isDigit)) (matched_text idLength_of_ne hs t 6 6)
  rw [Option.map_map, Option.map_map] at h
  exact h

theorem nameText_skip {s : Str} (hs : '"' ∉ s) (t : Str) : nameText (s ++ t) = nameText t :=
  matched_text nameLength_of_ne hs t 9 10

theorem idText_idLine (i : Nat) (a : Asset β) :
    idText (idLine i a) = some (Nat.toDigits 10 a.id) := by
  have hdigits : ∀ c ∈ Nat.toDigits 10 a.id, isDigit c = true := fun c hc ↦ Dotted.isDigit_of_mem hc
  have hne : (Nat.toDigits 10 a.id).length ≠ 0 := by simp [Nat.toDigits_ne_nil]
  have hblank : ((' ' :: (Nat.toDigits 10 a.id ++ [','])).takeWhile (· = ' ')).length = 1 := by
    obtain ⟨d, ds, hd⟩ :=
      List.exists_cons_of_ne_nil (Nat.toDigits_ne_nil : Nat.toDigits 10 a.id ≠ [])
    have hne : d ≠ ' ' := by
      rintro rfl
      exact absurd (hdigits ' ' (by rw [hd]; exact List.mem_cons_self)) (by decide)
    rw [hd]
    simp [hne]
  have htake : (Nat.toDigits 10 a.id ++ [',']).takeWhile isDigit = Nat.toDigits 10 a.id := by
    rw [List.takeWhile_append_of_pos hdigits]
    simp [isDigit]
  have hdrop : (idKey ++ ' ' :: (Nat.toDigits 10 a.id ++ [','])).drop 5 =
    ' ' :: (Nat.toDigits 10 a.id ++ [',']) := rfl
  have hdrop' : (idKey ++ ' ' :: (Nat.toDigits 10 a.id ++ [','])).drop (5 + 1) =
    Nat.toDigits 10 a.id ++ [','] := rfl
  have hlen : idLength (idKey ++ ' ' :: (Nat.toDigits 10 a.id ++ [','])) =
      some (6 + (Nat.toDigits 10 a.id).length) := by
    rw [idLength, if_pos (List.prefix_append _ _)]
    simp only [hdrop, hblank, hdrop', htake, if_neg hne]
  rw [idLine, idText_skip (quote_notMem_blanks i), idText, matched_self hlen]
  simp only [Option.map_some, Nat.zero_add, Nat.add_sub_cancel_left]
  rw [show (6 : Nat) = 5 + 1 from rfl, hdrop', List.take_left, List.filter_eq_self.mpr hdigits]

theorem nameText_idLine (i : Nat) (a : Asset β) : nameText (idLine i a) = none := by
  rw [idLine, nameText_skip (quote_notMem_blanks i), nameText]
  have hquote : '"' ∉ [':', ' '] ++ (Nat.toDigits 10 a.id ++ [',']) := by
    intro hc
    rcases List.mem_append.mp hc with hc | hc
    · exact absurd hc (by decide)
    · rcases List.mem_append.mp hc with hc | hc
      · exact absurd (Dotted.isDigit_of_mem hc) (by decide)
      · exact absurd hc (by decide)
  have hrest := matched_of_notMem nameLength_of_ne (by decide) hquote
  show Option.map _ (matched nameLength
    ('"' :: 'i' :: 'd' :: '"' :: ([':', ' '] ++ (Nat.toDigits 10 a.id ++ [','])))) = none
  rw [matched_cons (if_neg (by simp [nameKey])), matched_cons (if_neg (by simp [nameKey])),
    matched_cons (if_neg (by simp [nameKey])), matched_cons (if_neg (by simp [nameKey])), hrest]
  rfl

theorem nameText_nameLine (i : Nat) {a : Asset β} (h : Plain a.name) :
    nameText (nameLine i a) = some a.name := by
  have hquote : '"' ∉ a.name := fun hc ↦ (h _ hc).1 rfl
  have hlen : nameLength (nameKey ++ ' ' :: '"' :: (a.name ++ ['"', ','])) =
      some (10 + a.name.length) := by
    rw [nameLength, if_pos (List.prefix_append _ _)]
    have hblank : (((nameKey ++ ' ' :: '"' :: (a.name ++ ['"', ','])).drop 7).takeWhile
      (· = ' ')).length = 1 := rfl
    have hdrop : (nameKey ++ ' ' :: '"' :: (a.name ++ ['"', ','])).drop (7 + 1) =
      '"' :: (a.name ++ ['"', ',']) := rfl
    simp only [hblank, hdrop]
    rw [if_pos (by simp), beforeFirst_append hquote]
    congr 1
    omega
  rw [nameLine, nameText_skip (quote_notMem_blanks i), nameText, matched_self hlen]
  simp only [Option.map_some, Nat.zero_add, Nat.add_sub_cancel_left]
  show some ((a.name ++ _).take a.name.length) = _
  rw [List.take_left]

/-- A name is not taken for a number, not even `id`. -/
theorem idText_nameLine (i : Nat) {a : Asset β} (h : Plain a.name) :
    idText (nameLine i a) = none := by
  have hquote : '"' ∉ a.name := fun hc ↦ (h _ hc).1 rfl
  rw [nameLine, idText_skip (quote_notMem_blanks i), idText]
  have hend : matched idLength ['"', ','] = none := by decide
  have hname : matched idLength (a.name ++ ['"', ',']) = none := by
    rw [matched_skip idLength_of_ne hquote, hend]
    rfl
  have hopen : idLength ('"' :: (a.name ++ ['"', ','])) = none := by
    refine if_neg fun hc ↦ ?_
    obtain ⟨t, ht⟩ := (List.cons_prefix_cons.mp hc).2
    have hfirst := congrArg (afterFirst '"') ht
    rw [afterFirst_append hquote, show ['i', 'd', '"', ':'] ++ t = ['i', 'd'] ++ '"' :: (':' :: t)
      from rfl, afterFirst_append (by decide)] at hfirst
    exact absurd (List.cons.inj hfirst).1 (by decide)
  have hrest : matched idLength (' ' :: '"' :: (a.name ++ ['"', ','])) = none := by
    rw [matched_cons (idLength_of_ne _ _ (by decide)), matched_cons hopen, hname]
    rfl
  show Option.map _ (matched idLength ('"' :: (['n', 'a', 'm', 'e'] ++ '"' :: ([':'] ++ _)))) = none
  rw [matched_cons (if_neg (by simp [idKey])), matched_skip idLength_of_ne (by decide),
    matched_cons (if_neg (by simp [idKey])), matched_skip idLength_of_ne (by decide), hrest]
  rfl

/-! ## Reading the list -/

/-- Lines without a name only leave a number behind. -/
theorem scan_skip (want id : Str) {ls : List Str} (h : ∀ l ∈ ls, nameText l = none) :
    ∃ id', (∀ rest, scan want id (ls ++ rest) = scan want id' rest) ∧
      ((∀ l ∈ ls, idText l = none) → id' = id) := by
  induction ls generalizing id with
  | nil => exact ⟨id, fun _ ↦ rfl, fun _ ↦ rfl⟩
  | cons l ls ih =>
    obtain ⟨hl, hls⟩ := List.forall_mem_cons.mp h
    obtain ⟨id', hscan, hid⟩ := ih ((idText l).getD id) hls
    refine ⟨id', fun rest ↦ ?_, fun hnone ↦ ?_⟩
    · rw [List.cons_append, scan, hl, if_neg (by simp)]
      exact hscan rest
    · obtain ⟨hl', hls'⟩ := List.forall_mem_cons.mp hnone
      rw [hid hls', hl']
      rfl

/-- A file of the list is recognised by its name, and with its own number. -/
theorem scan_shown (want id : Str) {a : Asset β} {ls : List Str} (h : Shown a ls)
    (ha : Plain a.name) : ∃ id', ∀ rest, scan want id (ls ++ rest) =
      if a.name = want then Nat.toDigits 10 a.id else scan want id' rest := by
  obtain ⟨i, before, between, after, rfl, hbefore, hbetween, hafter⟩ := h
  obtain ⟨id₁, hscan₁, -⟩ := scan_skip want id hbefore
  obtain ⟨id₂, hscan₂, hid₂⟩ :=
    @scan_skip want (Nat.toDigits 10 a.id) between fun l hl ↦ (hbetween l hl).2
  obtain rfl := hid₂ fun l hl ↦ (hbetween l hl).1
  obtain ⟨id₃, hscan₃, -⟩ := scan_skip want (Nat.toDigits 10 a.id) hafter
  refine ⟨id₃, fun rest ↦ ?_⟩
  rw [List.append_assoc, hscan₁, List.cons_append, scan, idText_idLine, nameText_idLine,
    if_neg (by simp), Option.getD_some, List.append_assoc, hscan₂, List.cons_append, scan,
    idText_nameLine i ha, nameText_nameLine i ha, Option.getD_none]
  by_cases hname : a.name = want
  · rw [if_pos ⟨congrArg some hname, Nat.toDigits_ne_nil⟩, if_pos hname]
  · rw [if_neg fun hc ↦ hname (Option.some.inj hc.1), if_neg hname]
    exact hscan₃ rest

/-- The scan finds the number of the file of a name. -/
theorem scan_listing (E : Env β) {page : List (Asset β)} (h : ∀ a ∈ page, Plain a.name)
    (want : Str) :
    scan want [] (E.listing page) =
      ((page.find? fun a ↦ a.name = want).map fun a ↦ Nat.toDigits 10 a.id).getD [] := by
  have hpage : ∀ id, scan want id (page.flatMap E.shown ++ [[']']]) =
      ((page.find? fun a ↦ a.name = want).map fun a ↦ Nat.toDigits 10 a.id).getD [] := by
    induction page with
    | nil => exact fun id ↦ rfl
    | cons a page ih =>
      intro id
      obtain ⟨ha, hpage⟩ := List.forall_mem_cons.mp h
      obtain ⟨id', hscan⟩ := scan_shown want id (E.shown_spec a ha) ha
      rw [List.flatMap_cons, List.append_assoc, hscan]
      by_cases hname : a.name = want
      · rw [if_pos hname, List.find?_cons_of_pos (by simpa using hname)]
        rfl
      · rw [if_neg hname, List.find?_cons_of_neg (by simpa using hname)]
        exact ih hpage id'
  rw [Env.listing, scan, show nameText ['['] = none by decide, if_neg (by simp)]
  exact hpage _

/-! ## One upload -/

theorem removeOld_digits (s : Store β) (id : Nat) :
    removeOld s (Nat.toDigits 10 id) = s.delete id := by
  rw [removeOld, if_neg Nat.toDigits_ne_nil]
  exact congrArg s.delete Nat.ofDigitChars_ten_toDigits

namespace Store

variable {s : Store β} {rid : Nat}

/-- A file of a release is known by its name. -/
theorem eq_of_name {a b : Asset β} (ha : a ∈ s.assets) (hb : b ∈ s.assets)
    (hr : a.release = b.release) (hn : a.name = b.name) : a = b :=
  List.inj_on_of_nodup_map s.names ha hb (Prod.ext hr hn)

theorem eq_of_id {a b : Asset β} (ha : a ∈ s.assets) (hb : b ∈ s.assets) (h : a.id = b.id) :
    a = b :=
  List.inj_on_of_nodup_map s.ids ha hb h

/-- Deleting a file by its number deletes what has its name. -/
theorem delete_assets {a : Asset β} (ha : a ∈ s.assets) (hr : a.release = rid) :
    (s.delete a.id).assets = s.assets.filter fun b ↦ ¬(b.release = rid ∧ b.name = a.name) := by
  refine List.filter_congr fun b hb ↦ decide_eq_decide.mpr (not_congr ⟨fun h ↦ ?_, fun h ↦ ?_⟩)
  · rw [eq_of_id hb ha h]
    exact ⟨hr, rfl⟩
  · rw [eq_of_name hb ha (h.1.trans hr.symm) h.2]

theorem filter_name_of_notMem {name : Str}
    (h : ∀ b ∈ s.assets, b.release = rid → b.name ≠ name) :
    (s.assets.filter fun b ↦ ¬(b.release = rid ∧ b.name = name)) = s.assets :=
  List.filter_eq_self.mpr fun b hb ↦ decide_eq_true fun hc ↦ h b hb hc.1 hc.2

theorem add_eq_some {name : Str} (bytes : β)
    (h : ∀ b ∈ s.assets, b.release = rid → b.name ≠ name) :
    ∃ s', s.add rid name bytes = some s' ∧
      s'.assets = s.assets ++ [⟨s.next, rid, name, bytes⟩] := by
  have hnew : (rid, name) ∉ s.assets.map fun a ↦ (a.release, a.name) := by
    intro hc
    obtain ⟨b, hb, heq⟩ := List.mem_map.mp hc
    obtain ⟨hr, hn⟩ := Prod.mk.inj heq
    exact h b hb hr hn
  exact ⟨_, dif_neg hnew, rfl⟩

theorem add_assets {name : Str} {bytes : β} {s' : Store β} (h : s.add rid name bytes = some s') :
    s'.assets = s.assets ++ [⟨s.next, rid, name, bytes⟩] := by
  rw [add] at h
  split at h
  · cases h
  · cases h
    rfl

theorem add_eq_none {b : Asset β} (hb : b ∈ s.assets) (hr : b.release = rid) (bytes : β) :
    s.add rid b.name bytes = none :=
  dif_pos (List.mem_map.mpr ⟨b, hb, by rw [hr]⟩)

end Store

/-! ## A run -/

section Runs

variable {E : Env β} {rid : Nat} {page : List (Asset β)}

theorem scan_name (hplain : ∀ a ∈ page, Plain a.name) {name : Str} (hname : Plain name) :
    scan (E.assigned name) [] (E.listing page) =
      ((page.find? fun a ↦ a.name = name).map fun a ↦ Nat.toDigits 10 a.id).getD [] := by
  rw [E.assigned_eq name fun hc ↦ (hname _ hc).2.1 rfl, scan_listing E hplain]

/-- What a call deletes, if the list has the file of the name, or there is none. -/
theorem removeOld_assets (hplain : ∀ a ∈ page, Plain a.name) {s : Store β} {name : Str}
    (hname : Plain name) (hin : ∀ a ∈ page, a.name = name → a ∈ s.assets ∧ a.release = rid)
    (hall : ∀ a ∈ s.assets, a.release = rid → a.name = name → ∃ b ∈ page, b.name = name) :
    (removeOld s (scan (E.assigned name) [] (E.listing page))).assets =
      s.assets.filter fun a ↦ ¬(a.release = rid ∧ a.name = name) := by
  rw [scan_name hplain hname]
  cases hfind : page.find? fun a ↦ a.name = name with
  | none =>
    refine (Store.filter_name_of_notMem fun b hb hr hn ↦ ?_).symm
    obtain ⟨a, ha, han⟩ := hall b hb hr hn
    exact List.find?_eq_none.mp hfind a ha (by simpa using han)
  | some a =>
    obtain rfl : a.name = name := by simpa using List.find?_some hfind
    obtain ⟨ha, hr⟩ := hin a (List.mem_of_find?_eq_some hfind) rfl
    rw [Option.map_some, Option.getD_some, removeOld_digits]
    exact Store.delete_assets ha hr

/-- One call, if the list has the file of its name, or there is none. -/
theorem runFrom_upload (hplain : ∀ a ∈ page, Plain a.name) {s : Store β} {name : Str} (bytes : β)
    (as : List (Action β)) (hname : Plain name)
    (hin : ∀ a ∈ page, a.name = name → a ∈ s.assets ∧ a.release = rid)
    (hall : ∀ a ∈ s.assets, a.release = rid → a.name = name → ∃ b ∈ page, b.name = name) :
    ∃ sent s' : Store β,
      sent.assets = s.assets.filter (fun a ↦ ¬(a.release = rid ∧ a.name = name)) ∧
      s'.assets = sent.assets ++ [⟨sent.next, rid, name, bytes⟩] ∧
      runFrom E rid (E.listing page) (.upload name bytes :: as) s =
        ⟨⟨name, s, sent⟩ :: (runFrom E rid (E.listing page) as s').calls,
          (runFrom E rid (E.listing page) as s').store,
          (runFrom E rid (E.listing page) as s').died⟩ := by
  have hsent := removeOld_assets (E := E) hplain hname hin hall
  set sent := removeOld s (scan (E.assigned name) [] (E.listing page)) with hdef
  have hfree : ∀ b ∈ sent.assets, b.release = rid → b.name ≠ name := by
    intro b hb hr hn
    rw [hsent] at hb
    exact of_decide_eq_true (List.mem_filter.mp hb).2 ⟨hr, hn⟩
  obtain ⟨s', hadd, hs'⟩ := Store.add_eq_some bytes hfree
  refine ⟨sent, s', hsent, hs', ?_⟩
  rw [runFrom]
  simp only [← hdef, hadd]

/-- If the list has all files whose names are uploaded, they are replaced. -/
theorem runFrom_replaces (hplain : ∀ a ∈ page, Plain a.name) {as : List (Action β)} {s : Store β}
    (hgo : ∀ why, .die why ∉ as) (hnames : ((uploads as).map Prod.fst).Nodup)
    (hup : ∀ n ∈ (uploads as).map Prod.fst, Plain n)
    (hin : ∀ a ∈ page, a.name ∈ (uploads as).map Prod.fst → a ∈ s.assets ∧ a.release = rid)
    (hall : ∀ a ∈ s.assets, a.release = rid → a.name ∈ (uploads as).map Prod.fst →
      ∃ b ∈ page, b.name = a.name) :
    Replaces rid as s (runFrom E rid (E.listing page) as s) := by
  induction as generalizing s with
  | nil =>
    refine ⟨rfl, by simp [runFrom], rfl, [], ?_, rfl⟩
    show s.assets = _
    rw [List.append_nil, eq_comm, List.filter_eq_self]
    exact fun a _ ↦ decide_eq_true (by simp [uploads])
  | cons act as ih =>
    cases act with
    | die why => exact absurd List.mem_cons_self (hgo why)
    | upload name bytes =>
      have huploads : (uploads (.upload name bytes :: as)).map Prod.fst =
        name :: (uploads as).map Prod.fst := rfl
      rw [huploads] at hnames hup hin hall
      obtain ⟨hnew, hnames⟩ := List.nodup_cons.mp hnames
      obtain ⟨hname, hup⟩ := List.forall_mem_cons.mp hup
      obtain ⟨sent, s', hsent, hs', hrun⟩ := runFrom_upload (E := E) hplain bytes as hname
        (fun a ha hn ↦ hin a ha (hn ▸ List.mem_cons_self))
        fun a ha hr hn ↦ hn ▸ hall a ha hr (hn ▸ List.mem_cons_self)
      rw [hsent] at hs'
      have hrec : Replaces rid as s' (runFrom E rid (E.listing page) as s') := by
        refine ih (fun why hc ↦ hgo why (List.mem_cons_of_mem _ hc)) hnames hup ?_ ?_
        · intro a ha hn
          obtain ⟨has, hr⟩ := hin a ha (List.mem_cons_of_mem _ hn)
          refine ⟨?_, hr⟩
          rw [hs', List.mem_append, List.mem_filter]
          exact .inl ⟨has, decide_eq_true fun hc ↦ hnew (hc.2 ▸ hn)⟩
        · intro a ha hr hn
          rw [hs', List.mem_append, List.mem_filter] at ha
          rcases ha with ⟨ha, -⟩ | ha
          · exact hall a ha hr (List.mem_cons_of_mem _ hn)
          · rw [List.mem_singleton.mp ha] at hn
            exact absurd hn hnew
      obtain ⟨new, hassets, hnewmap⟩ := hrec.assets
      rw [hrun]
      refine ⟨?_, ?_, hrec.accepted, ⟨sent.next, rid, name, bytes⟩ :: new, ?_, ?_⟩
      · rw [huploads, List.map_cons, hrec.called]
      · exact List.forall_mem_cons.mpr ⟨hsent, hrec.each⟩
      · show (runFrom E rid (E.listing page) as s').store.assets = _
        have hkeep : [(⟨sent.next, rid, name, bytes⟩ : Asset β)].filter
            (fun a ↦ ¬(a.release = rid ∧ a.name ∈ (uploads as).map Prod.fst)) =
            [⟨sent.next, rid, name, bytes⟩] :=
          List.filter_eq_self.mpr fun b hb ↦ decide_eq_true fun hc ↦ by
            rw [List.mem_singleton.mp hb] at hc
            exact hnew hc.2
        rw [hassets, hs', List.filter_append, hkeep, List.append_assoc, List.singleton_append,
          List.filter_filter, huploads]
        congr 1
        refine List.filter_congr fun b _ ↦ ?_
        rw [Bool.eq_iff_iff]
        simp only [Bool.and_eq_true, decide_eq_true_eq, List.mem_cons]
        tauto
      · rw [List.map_cons, hnewmap]
        rfl

/-- If a file whose name is uploaded is not in the list, the upload is refused. -/
theorem runFrom_died (hplain : ∀ a ∈ page, Plain a.name) {b : Asset β} (hr : b.release = rid)
    (hbeyond : ∀ a ∈ page, a.name ≠ b.name ∧ a.id ≠ b.id) {as : List (Action β)} {s : Store β}
    (hup : ∀ n ∈ (uploads as).map Prod.fst, Plain n) (hb : b ∈ s.assets)
    (hmem : b.name ∈ (uploads as).map Prod.fst) :
    (runFrom E rid (E.listing page) as s).died ≠ none := by
  induction as generalizing s with
  | nil => cases hmem
  | cons act as ih =>
    cases act with
    | die why => exact Option.some_ne_none _
    | upload name bytes =>
      have huploads : (uploads (.upload name bytes :: as)).map Prod.fst =
        name :: (uploads as).map Prod.fst := rfl
      rw [huploads] at hup hmem
      obtain ⟨hname, hup⟩ := List.forall_mem_cons.mp hup
      -- what is deleted has a number from the list
      have hsent : b ∈ (removeOld s (scan (E.assigned name) [] (E.listing page))).assets := by
        rw [scan_name hplain hname]
        cases hfind : page.find? fun a ↦ a.name = name with
        | none => exact hb
        | some a =>
          rw [Option.map_some, Option.getD_some, removeOld_digits]
          exact List.mem_filter.mpr ⟨hb, decide_eq_true fun hc ↦
            (hbeyond a (List.mem_of_find?_eq_some hfind)).2 hc.symm⟩
      rw [runFrom]
      cases hadd : (removeOld s (scan (E.assigned name) [] (E.listing page))).add rid name bytes
        with
      | none => exact Option.some_ne_none _
      | some s' =>
        have hne : b.name ≠ name := by
          rintro rfl
          rw [Store.add_eq_none hsent hr] at hadd
          cases hadd
        refine ih hup ?_ ((List.mem_cons.mp hmem).resolve_left hne)
        rw [Store.add_assets hadd]
        exact List.mem_append_left _ hsent

end Runs

theorem died_of_beyond {E : Env β} {rid : Nat} {as : List (Action β)} {s : Store β}
    (hup : ∀ n ∈ (uploads as).map Prod.fst, Plain n) (hstored : ∀ a ∈ s.of rid, Plain a.name)
    {b : Asset β} (hb : b ∈ s.of rid) (hmem : b.name ∈ (uploads as).map Prod.fst)
    (hpage : b ∉ (s.of rid).take perPage) : (run E rid as s).died ≠ none := by
  obtain ⟨hbs, hr⟩ := List.mem_filter.mp hb
  refine runFrom_died (fun a ha ↦ hstored a (List.mem_of_mem_take ha)) (of_decide_eq_true hr)
    (fun a ha ↦ ?_) hup hbs hmem
  obtain ⟨has, har⟩ := List.mem_filter.mp (List.mem_of_mem_take ha)
  have hne : a ≠ b := by
    rintro rfl
    exact hpage ha
  refine ⟨fun hn ↦ hne (Store.eq_of_name has hbs ?_ hn), fun hid ↦ hne (Store.eq_of_id has hbs hid)⟩
  rw [of_decide_eq_true har, of_decide_eq_true hr]

/-- **When a release can be uploaded again.**  The files whose names are uploaded are replaced, and
nothing else changes, if and only if all of them are on the first page of the list. -/
theorem replaces_iff (E : Env β) (rid : Nat) (i : Input β) (s : Store β)
    (hgo : ∀ why, .die why ∉ i.actions E)
    (hnames : ((uploads (i.actions E)).map Prod.fst).Nodup)
    (hup : ∀ n ∈ (uploads (i.actions E)).map Prod.fst, Plain n)
    (hstored : ∀ a ∈ s.of rid, Plain a.name) :
    Replaces rid (i.actions E) s (run E rid (i.actions E) s) ↔
      ∀ a ∈ s.of rid, a.name ∈ (uploads (i.actions E)).map Prod.fst →
        a ∈ (s.of rid).take perPage := by
  constructor
  · intro h a ha hmem
    by_contra hpage
    exact died_of_beyond hup hstored ha hmem hpage h.accepted
  · intro h
    refine runFrom_replaces (fun a ha ↦ hstored a (List.mem_of_mem_take ha)) hgo hnames hup ?_ ?_
    · intro a ha _
      obtain ⟨has, har⟩ := List.mem_filter.mp (List.mem_of_mem_take ha)
      exact ⟨has, of_decide_eq_true har⟩
    · intro a ha hr hn
      exact ⟨a, h a (List.mem_filter.mpr ⟨ha, decide_eq_true hr⟩) hn, rfl⟩

/-- How GitHub goes on after the name of a file. -/
def sampleAfter : List Str :=
  ["    \"label\": \"\",".toList, "    \"uploader\": \x7b".toList,
    "      \"login\": \"github-actions[bot]\",".toList, "      \"id\": 41898282,".toList,
    "    \x7d,".toList, "  \x7d,".toList]

/-- GitHub's list, an awk that knows no escapes, and a container that is not needed. -/
def sampleEnv : Env Nat where
  assigned := id
  assigned_eq := fun _ _ ↦ rfl
  zip := fun _ _ ↦ none
  shown := fun a ↦ ["  \x7b".toList, "    \"url\": \"https://api.github.com\",".toList] ++
    idLine 4 a :: (["    \"node_id\": \"RA_1\",".toList] ++ nameLine 4 a :: sampleAfter)
  shown_spec := fun a _ ↦ ⟨4, _, _, sampleAfter, rfl, by decide, by decide, by decide⟩

/-- The names of the images of a device. -/
def sampleName (k : Nat) : Str := "base-".toList ++ (Nat.toDigits 10 k ++ ".bin".toList)

theorem sampleName_injective : Function.Injective sampleName := by
  intro i j h
  have hdigits := List.append_cancel_right (List.append_cancel_left h)
  have hnumbers := congrArg (fun s ↦ Nat.ofDigitChars 10 s 0) hdigits
  simpa only [Nat.ofDigitChars_ten_toDigits] using hnumbers

theorem plain_sampleName (k : Nat) : Plain (sampleName k) := by
  have hbase : Plain "base-".toList := by decide
  have hbin : Plain ".bin".toList := by decide
  intro c hc
  rcases List.mem_append.mp hc with hc | hc
  · exact hbase c hc
  · rcases List.mem_append.mp hc with hc | hc
    · have hdigit : isDigit c = true := Dotted.isDigit_of_mem hc
      rw [isDigit, Bool.and_eq_true, decide_eq_true_eq, decide_eq_true_eq] at hdigit
      refine ⟨?_, ?_, le_trans (by decide) hdigit.1⟩
      · rintro rfl
        exact absurd hdigit.1 (by decide)
      · rintro rfl
        exact absurd hdigit.2 (by decide)
    · exact hbin c hc

/-- A release with so many images. -/
def sampleStore (n : Nat) : Store Nat where
  assets := (List.range n).map fun k ↦ ⟨k, 1, sampleName k, 0⟩
  next := n
  ids := by
    rw [List.map_map]
    exact List.nodup_range.map fun _ _ h ↦ h
  id_lt := by
    intro a ha
    obtain ⟨k, hk, rfl⟩ := List.mem_map.mp ha
    exact List.mem_range.mp hk
  names := by
    rw [List.map_map]
    exact List.nodup_range.map fun _ _ h ↦ sampleName_injective (Prod.mk.inj h).2

theorem plain_of_sampleStore {n rid : Nat} {a : Asset Nat} (h : a ∈ (sampleStore n).of rid) :
    Plain a.name := by
  obtain ⟨k, -, rfl⟩ := List.mem_map.mp (List.mem_of_mem_filter h)
  exact plain_sampleName k

/-- An image that is to be uploaded. -/
def sampleInput (f : String) : Input Nat where
  fs := ((Tree.empty.mkdirs ["i".toList, "g".toList, "base".toList]).bind fun t ↦
    t.write ["i".toList, "g".toList, "base".toList, f.toList] 1).getD Tree.empty
  dir := none
  images := some ["i".toList]

/-- An image that replaces one of ten. -/
theorem replaces_iff_seventh :
    (sampleInput "7.bin").actions sampleEnv = [.upload (sampleName 7) 1] ∧
      Replaces 1 ((sampleInput "7.bin").actions sampleEnv) (sampleStore 10)
        (run sampleEnv 1 ((sampleInput "7.bin").actions sampleEnv) (sampleStore 10)) := by
  have hacts : (sampleInput "7.bin").actions sampleEnv = [.upload (sampleName 7) 1] := by decide
  refine ⟨hacts,
    (replaces_iff sampleEnv 1 (sampleInput "7.bin") (sampleStore 10) ?_ ?_ ?_ ?_).mpr ?_⟩
  · rw [hacts]
    simp
  · rw [hacts]
    exact List.nodup_singleton _
  · rw [hacts]
    exact fun n hn ↦ List.mem_singleton.mp hn ▸ plain_sampleName 7
  · exact fun a ha ↦ plain_of_sampleStore ha
  · -- ten files fit on a page
    intro a ha _
    rwa [List.take_of_length_le (by decide)]

/-- The last of 101 files is not on the first page. -/
theorem upload_beyond_page :
    ¬∀ (E : Env Nat) (rid : Nat) (i : Input Nat) (s : Store Nat), (∀ why, .die why ∉ i.actions E) →
      ((uploads (i.actions E)).map Prod.fst).Nodup →
      (∀ n ∈ (uploads (i.actions E)).map Prod.fst, Plain n) → (∀ a ∈ s.of rid, Plain a.name) →
      Replaces rid (i.actions E) s (run E rid (i.actions E) s) := by
  intro h
  have hacts : (sampleInput "100.bin").actions sampleEnv = [.upload (sampleName 100) 1] := by decide
  have hup : ∀ n ∈ (uploads ((sampleInput "100.bin").actions sampleEnv)).map Prod.fst, Plain n := by
    rw [hacts]
    exact fun n hn ↦ List.mem_singleton.mp hn ▸ plain_sampleName 100
  have hstored : ∀ a ∈ (sampleStore 101).of 1, Plain a.name := fun a ha ↦ plain_of_sampleStore ha
  have hrun := h sampleEnv 1 (sampleInput "100.bin") (sampleStore 101) (by rw [hacts]; simp)
    (by rw [hacts]; exact List.nodup_singleton _) hup hstored
  have hassets : (sampleStore 101).of 1 = (List.range 101).map fun k ↦ ⟨k, 1, sampleName k, 0⟩ :=
    List.filter_eq_self.mpr fun a ha ↦ by
      obtain ⟨k, -, rfl⟩ := List.mem_map.mp ha
      rfl
  refine died_of_beyond (b := ⟨100, 1, sampleName 100, 0⟩) hup hstored ?_ ?_ ?_ hrun.accepted
  · rw [hassets]
    exact List.mem_map.mpr ⟨100, List.mem_range.mpr (by omega), rfl⟩
  · rw [hacts]
    exact List.mem_singleton_self _
  · rw [hassets, ← List.map_take, List.take_range]
    intro hc
    obtain ⟨k, hk, heq⟩ := List.mem_map.mp hc
    obtain rfl : k = 100 := congrArg Asset.id heq
    exact absurd (List.mem_range.mp hk) (by decide)

end OpenwrtFeed.Assets
