import Mathlib.Data.Prod.Lex
import OpenwrtFeed.Feed.Mirror

/-!
# Late publishes

"A late publish must never roll a channel back": before it publishes, `publish-feed.sh` asks the
source repository whether its build is still the newest one, `main`'s tip for `main` and the highest
release tag for `stable`, and refuses if it is not.  After that it starts `publish-pages.sh`, which
may sleep and try again up to ten times and never asks again.

`FeedStep` is the branch of `OpenwrtFeed.Pages.Branch` together with the source repository and the
checks: commits and tags arrive, runs make their checks, and only runs that have passed them take
part in the race for the branch.

The check and the push are two steps and nothing keeps others out in between, so the rule does not
hold (`rolls_back`).  It does hold of every run in which no other run of the same channel pushes
between a run's check and its own push (`no_rollback_of_orderly`), as long as `main` moves forward
and release tags stay.
-/

set_option autoImplicit false

namespace OpenwrtFeed

open Shell DirTree Relation

/-! ## The source repository -/

/-- What `git ls-remote` says. -/
structure Remote where
  /-- The commit `main` is at; empty if there is no such branch. -/
  tip : Str
  /-- The tags, and the commit behind each of them. -/
  tags : List (Str × Str)
  /-- A name has no newline in it. -/
  names : ∀ t ∈ tags, '\n' ∉ t.1

/-- What `s#.*refs/tags/##` leaves of a tag. -/
def tagName (tag : Str) : Str :=
  (((tag.tails.filter ("refs/tags/".toList <+: ·)).getLast?).map (·.drop 10)).getD tag

/-- The tags that are releases. -/
def Remote.releases (r : Remote) : List Str := (r.tags.map fun t ↦ tagName t.1).filter isReleaseTag

/-- The number a field of a tag stands for. -/
def numeral (s : Str) : Nat := s.foldl (fun n c ↦ 10 * n + (c.toNat - '0'.toNat)) 0

/-- What `sort -V` compares of a name made of digits and dots: the numbers in it, a name that
another one begins with coming first, and the names themselves if there is no difference. -/
def sortKey (s : Str) : List Nat ×ₗ Str := toLex ((s.splitOn '.').map numeral, s)

/-- `latest` -/
def Remote.latest (r : Remote) : Option Str :=
  (r.releases.insertionSort fun a b ↦ sortKey a ≤ sortKey b).getLast?

/-- `tagsha` -/
def Remote.tagsha (r : Remote) (tag : Str) : Str :=
  ((r.tags.find? fun t ↦ t.1 = tag).map Prod.snd).getD []

theorem latest_eq_some {r : Remote} {t : Str} (h : r.latest = some t) :
    t ∈ r.releases ∧ ∀ u ∈ r.releases, sortKey u ≤ sortKey t := by
  rw [Remote.latest] at h
  have hsorted := List.pairwise_insertionSort (fun a b : Str ↦ sortKey a ≤ sortKey b) r.releases
  obtain ⟨l, hl⟩ := List.getLast?_eq_some_iff.mp h
  have hmem : ∀ u, u ∈ r.releases ↔ u ∈ l ++ [t] := fun u ↦ by
    rw [← hl, List.mem_insertionSort]
  refine ⟨(hmem t).mpr (by simp), fun u hu ↦ ?_⟩
  rcases List.mem_append.mp ((hmem u).mp hu) with hu | hu
  · rw [hl, List.pairwise_append] at hsorted
    exact hsorted.2.2 u hu t (List.mem_singleton_self t)
  · rw [List.mem_singleton.mp hu]

theorem latest_eq_none {r : Remote} (h : r.latest = none) : r.releases = [] := by
  rw [Remote.latest, List.getLast?_eq_none_iff] at h
  have hlen := List.length_insertionSort (fun a b : Str ↦ sortKey a ≤ sortKey b) r.releases
  rw [h] at hlen
  exact List.eq_nil_of_length_eq_zero hlen.symm

/-! ## The checks -/

/-- Where a run is before it starts `publish-pages.sh`. -/
inductive Gate
  /-- It has not asked yet. -/
  | waiting
  /-- The release tag is at the commit of the build. -/
  | tagged
  /-- The build was the newest one, at the time of the `n`-th push. -/
  | passed (n : Nat)
  /-- It was not, and the run has left with a warning. -/
  | refused
  deriving DecidableEq

/-- The next question and its answer; `n` pushes have been made so far. -/
def FeedOptions.ask (o : FeedOptions) (r : Remote) (n : Nat) : Gate → Gate
  | .waiting =>
    if o.channel = stableName then
      if r.tagsha o.tag ≠ o.sha ∧ o.force = false then .refused else .tagged
    else if r.tip ≠ [] ∧ r.tip ≠ o.sha ∧ o.force = false then .refused
    else .passed n
  | .tagged =>
    match r.latest with
    | some l => if l ≠ o.tag ∧ o.force = false then .refused else .passed n
    -- without any release the pipeline fails under `pipefail`; here more runs go on than do so
    | none => .passed n
  | g => g

/-- The source repository, the checks and the branch. -/
structure FeedWorld (ι : Type) where
  remote : Remote
  gates : ι → Gate
  pages : World ι

variable {ι : Type}

/-- Image runs ask nothing. -/
def Gate.start : Job → Gate
  | .feed _ _ _ => .waiting
  | .images _ => .passed 0

def FeedWorld.start (job : ι → Job) (attempts : ι → Nat) (r : Remote) : FeedWorld ι where
  remote := r
  gates i := .start (job i)
  pages := World.start attempts none

variable [DecidableEq ι]

/-- Run `i` is at `g`. -/
def FeedWorld.setGate (w : FeedWorld ι) (i : ι) (g : Gate) : FeedWorld ι :=
  { w with gates := Function.update w.gates i g }

theorem FeedWorld.setGate_gates (w : FeedWorld ι) (i j : ι) (g : Gate) :
    (w.setGate i g).gates j = if j = i then g else w.gates j :=
  Function.update_apply w.gates i g j

/-- Commits and tags arrive, a run asks a question, or a run that has passed goes on. -/
inductive FeedStep (E : Env) (job : ι → Job) (req : ι → Request) (attempts : ι → Nat) :
    FeedWorld ι → FeedWorld ι → Prop
  | source (w : FeedWorld ι) (r : Remote) : FeedStep E job req attempts w { w with remote := r }
  | ask (w : FeedWorld ι) (i : ι) (c : FeedCall) (o : FeedOptions) (ho : c.options = .ok o)
      (hj : job i = .feed c o ho) :
      FeedStep E job req attempts w
        (w.setGate i (o.ask w.remote w.pages.pushed.length (w.gates i)))
  | pages (w : FeedWorld ι) (p : World ι) (h : Step E req attempts w.pages p)
      (hgate : ∀ i, p.runs i ≠ w.pages.runs i → ∃ n, w.gates i = .passed n) :
      FeedStep E job req attempts w { w with pages := p }

/-! ## What is asked of them -/

/-- The channel of a feed build. -/
def Job.channel : Job → Option Str
  | .feed _ o _ => some o.channel
  | .images _ => none

/-- The commit of a feed build. -/
def Job.sha : Job → Str
  | .feed _ o _ => o.sha
  | .images _ => []

/-- Its release tag. -/
def Job.tag : Job → Str
  | .feed _ o _ => o.tag
  | .images _ => []

def mainTree (rel arch : Str) : Path := [mainName, rel, arch]

/-- The commit a tree of `main` is stamped with. -/
def stampedSha (rel arch : Str) (t : Site) : Option Str :=
  match t.read (mainTree rel arch ++ [publishedName]) with
  | some (.stamp s) => some s.sha
  | _ => none

/-- The commits stamped into a tree of `main`, commit by commit of the branch. -/
def stampedShas (rel arch : Str) (pushed : List (ι × Commit)) : List Str :=
  pushed.filterMap fun p ↦ stampedSha rel arch p.2.tree

/-- What the runs of one channel have published, in the order of their pushes. -/
def published (job : ι → Job) (ch : Str) (val : Job → Str) (pushed : List (ι × Commit)) :
    List Str :=
  (pushed.filter fun p ↦ (job p.1).channel = some ch).map fun p ↦ val (job p.1)

/-- No channel is rolled back: what is published later is never older. -/
structure NoRollback (anc : Str → Str → Prop) (job : ι → Job) (pushed : List (ι × Commit)) :
    Prop where
  main : ∀ rel arch, '=' ∉ rel → '=' ∉ arch →
    (stampedShas rel arch pushed).Pairwise fun a b ↦ ¬anc b a
  stable : (published job stableName Job.tag pushed).Pairwise fun a b ↦ sortKey a ≤ sortKey b

/-- A step that keeps out of the way of the others: `main` only moves forward, no release tag goes
away, and whoever pushes is the first of its channel to do so since its check. -/
structure Orderly (anc : Str → Str → Prop) (job : ι → Job) (w w' : FeedWorld ι) : Prop where
  tip : w.remote.tip ≠ []
  forward : w'.remote.tip = w.remote.tip ∨ anc w.remote.tip w'.remote.tip
  tags : ∀ t ∈ w.remote.releases, t ∈ w'.remote.releases
  push : ∀ i c, w'.pages.pushed = w.pages.pushed ++ [(i, c)] → ∀ n, w.gates i = .passed n →
    ∀ p ∈ w.pages.pushed.drop n, (job p.1).channel ≠ (job i).channel

/-! ## Release tags -/

theorem isReleaseTag_plain {s : Str} (h : isReleaseTag s = true) : 'r' ∉ s := by
  have hdigit : ∀ c : Char, isDigit c = true → 'r' ≠ c := by
    rintro c hc rfl
    revert hc
    decide
  unfold isReleaseTag at h
  split at h
  · rename_i y₁ y₂ m₁ m₂ d₁ d₂ rest
    simp only [List.all_cons, List.all_nil, Bool.and_true, Bool.and_eq_true] at h
    obtain ⟨⟨h₁, h₂, h₃, h₄, h₅, h₆⟩, hrest⟩ := h
    have hn : 'r' ∉ rest := by
      split at hrest
      · simp
      · simp only [Bool.and_eq_true, List.all_eq_true] at hrest
        rw [List.mem_cons, not_or]
        exact ⟨by decide, fun hc ↦ hdigit _ (hrest.2 _ hc) rfl⟩
      · cases hrest
    simp [hdigit _ h₁, hdigit _ h₂, hdigit _ h₃, hdigit _ h₄, hdigit _ h₅, hdigit _ h₆, hn]
  · cases h

theorem tagName_of_release {s : Str} (h : isReleaseTag s = true) : tagName s = s := by
  have hnil : s.tails.filter ("refs/tags/".toList <+: ·) = [] := by
    rw [List.filter_eq_nil_iff]
    intro t ht hpre
    obtain ⟨u, rfl⟩ := of_decide_eq_true hpre
    have hsuf := (List.mem_tails _ _).mp ht
    exact isReleaseTag_plain h (hsuf.subset (by simp))
  rw [tagName, hnil]
  rfl

/-- A tag that is where the build was made from is one of the releases. -/
theorem tag_mem_releases {o : FeedOptions} (ho : o.Ok) (hch : o.channel = stableName) {r : Remote}
    (h : r.tagsha o.tag = o.sha) : o.tag ∈ r.releases := by
  obtain ⟨t, ht, htag⟩ : ∃ t ∈ r.tags, t.1 = o.tag := by
    rw [Remote.tagsha] at h
    cases hf : r.tags.find? fun t ↦ t.1 = o.tag with
    | none => rw [hf] at h; exact absurd h.symm ho.sha
    | some t => exact ⟨t, List.mem_of_find?_eq_some hf, by simpa using List.find?_some hf⟩
  have hline : '\n' ∉ o.tag := htag ▸ r.names t ht
  have hrel : isReleaseTag o.tag = true := by
    have hany := ho.tag hch
    rw [lines, List.splitOn_eq_singleton hline] at hany
    by_cases hempty : o.tag = []
    · rw [hempty] at hany
      cases hany
    · simpa [hempty] using hany
  rw [Remote.releases, List.mem_filter]
  refine ⟨List.mem_map.mpr ⟨t, ht, ?_⟩, hrel⟩
  rw [htag, tagName_of_release hrel]

/-! ## The stamps of `main` -/

section Stamps

variable {E : Env} {r : Request} {t t' : Site} {rel arch : Str}

theorem foldlM_publish_read {ps : List Str} {e : Path}
    (he : ∀ p ∈ ps, ¬destOf p <+: e ++ [publishedName] ∨ destOf p = e)
    (h : ps.foldlM (publish E r) t = some t') :
    t'.read (e ++ [publishedName]) = t.read (e ++ [publishedName]) ∨
      (∃ p ∈ ps, destOf p = e) ∧ t'.read (e ++ [publishedName]) = some (.stamp r.stamp) := by
  induction ps generalizing t with
  | nil => cases h; exact .inl rfl
  | cons p ps ih =>
    rw [List.foldlM_cons] at h
    obtain ⟨u, hu, h⟩ := Option.bind_eq_some_iff.mp h
    rcases ih (fun p' hp' ↦ he p' (List.mem_cons_of_mem p hp')) h with hsame | ⟨⟨p', hp', hd⟩, hst⟩
    · rw [hsame]
      rcases he p List.mem_cons_self with hnot | hdest
      · exact .inl (read_congr fun c ↦ publish_file_iff hu hnot c)
      · refine .inr ⟨⟨p, List.mem_cons_self, hdest⟩, ?_⟩
        rw [← hdest]
        exact publish_stamp hu
    · exact .inr ⟨⟨p', List.mem_cons_of_mem p hp', hd⟩, hst⟩

/-- Where a job publishes a tree, seen from a tree of `main`: not above it, or it is this tree and
the job is a `main` build. -/
theorem job_dest_main {j : Job} {v : Plan} (hv : j.pages.plan = .ok v) (hj : j.Named)
    (hrel : '=' ∉ rel) (harch : '=' ∉ arch) :
    ∀ p ∈ (v.request j.pages).accepted, ¬destOf p <+: mainTree rel arch ++ [publishedName] ∨
      destOf p = mainTree rel arch ∧ j.channel = some mainName := by
  intro p hp
  obtain ⟨a, ha, rfl⟩ := List.mem_map.mp hp
  have hplain : ∀ y ∈ mainTree rel arch, '=' ∉ y := by
    intro y hy
    simp only [mainTree, List.mem_cons, List.not_mem_nil, or_false] at hy
    rcases hy with rfl | rfl | rfl
    · decide
    · exact hrel
    · exact harch
  have hhead : ∀ y, y ≠ mainName → (destOf a.entry).head? = some y →
      ¬destOf a.entry <+: mainTree rel arch ++ [publishedName] := by
    intro y hy hhead hpre
    obtain ⟨l, hl⟩ := List.head?_eq_some_iff.mp hhead
    rw [hl, mainTree, List.cons_append, List.cons_prefix_cons] at hpre
    exact hy hpre.1
  rcases job_dest hj hv ha with hodd | htools | himages |
    ⟨c, o, ho, d, rfl, hd, hdest | ⟨-, hdest⟩⟩
  · exact .inl (hodd.not_above hplain _)
  · exact .inl (hhead _ (by decide) htools)
  · exact .inl (hhead _ (by decide) himages)
  · rcases options_channel ho with hch | hch
    · by_cases heq : relOf d = rel ∧ archOf d = arch
      · exact .inr ⟨by rw [hdest, hch, heq.1, heq.2]; rfl, by rw [Job.channel, hch]⟩
      · refine .inl fun hpre ↦ heq ?_
        rw [hdest] at hpre
        simp only [mainTree, List.cons_append, List.cons_prefix_cons] at hpre
        exact ⟨hpre.2.1, hpre.2.2.1⟩
    · exact .inl (hhead stableName (by decide) (by rw [hdest, hch]; rfl))
  · refine .inl (hhead (relOf d) (fun hc ↦ (hj d hd).2.2 ?_) (by rw [hdest]; rfl))
    rw [hc]; decide

/-- The trees of `main` are written by `main` builds, which stamp their commit. -/
theorem stampedSha_job {j : Job} (hr : j.request = .ok r) (hj : j.Named) (hrel : '=' ∉ rel)
    (harch : '=' ∉ arch) (h : applyChanges E r t = some t') :
    stampedSha rel arch t' = stampedSha rel arch t ∨
      j.channel = some mainName ∧ stampedSha rel arch t' = some j.sha := by
  obtain ⟨u, -, -, hu, -⟩ := applyChanges_eq_some h
  have hlast : t'.read (mainTree rel arch ++ [publishedName]) =
      u.read (mainTree rel arch ++ [publishedName]) :=
    applyChanges_sameFiles (show mainName ≠ keysName by decide) hu h _ (by decide)
  have hdests := hu
  rw [applyDests, job_removes hr, List.foldl_nil] at hdests
  obtain ⟨v, hv, rfl⟩ := job_plan hr
  have hcases := job_dest_main hv hj hrel harch
  have hread := foldlM_publish_read (fun p hp ↦ (hcases p hp).imp_right And.left) hdests
  rw [← hlast] at hread
  rcases hread with hsame | ⟨⟨p, hp, hdest⟩, hst⟩
  · left
    rw [stampedSha, stampedSha, hsame]
  · right
    have hch : j.channel = some mainName := by
      rcases hcases p hp with hnot | ⟨-, hch⟩
      · rw [hdest] at hnot
        exact absurd (List.prefix_append _ _) hnot
      · exact hch
    refine ⟨hch, ?_⟩
    rw [stampedSha, hst]
    cases j with
    | feed c o ho =>
      have hsha := (options_ok ho).sha
      simp [Plan.request, Job.pages, FeedCall.pages, orElse, hsha, Job.sha]
    | images c => cases hch

end Stamps

/-! ## The invariant -/

/-- A step of the branch pushes one commit or none. -/
theorem step_pushed {E : Env} {req : ι → Request} {attempts : ι → Nat} {w w' : World ι}
    (hw : w.Inv E req) (h : Step E req attempts w w') :
    w'.pushed = w.pushed ∧ content w'.branch = content w.branch ∨
      ∃ i c, w'.pushed = w.pushed ++ [(i, c)] ∧ w'.runs i ≠ w.runs i ∧
        applyChanges E (req i) (content w.branch) = some c.tree ∧ content w'.branch = c.tree := by
  cases h with
  | push i date hp hc hb =>
    refine .inr ⟨i, _, rfl, fun hrun ↦ ?_, ?_, rfl⟩
    · have hphase : ((w.set i { w.runs i with phase := .exited 0 }).runs i).phase =
          (w.runs i).phase := congrArg Run.phase hrun
      rw [World.set_runs, if_pos rfl, hp] at hphase
      cases hphase
    · have happ := (hw.ok i).applied hp
      rw [← hb] at happ
      exact happ
  | _ => exact .inl ⟨rfl, rfl⟩

section Invariant

variable {E : Env} {job : ι → Job} {req : ι → Request} {attempts : ι → Nat} {w w' : FeedWorld ι}

/-- The runs of one channel publish in order.  `val` is what they publish, `Known v r` that the
remote has had `v`, and `R` the order. -/
structure ChannelInv (ch : Str) (val : Job → Str) (Known : Str → Remote → Prop)
    (R : Str → Str → Prop) (job : ι → Job) (w : FeedWorld ι) : Prop where
  bound : ∀ i n, w.gates i = .passed n → n ≤ w.pages.pushed.length
  pushed : ∀ p ∈ w.pages.pushed, (job p.1).channel = some ch → Known (val (job p.1)) w.remote
  /-- Whoever has passed knows of nothing newer, and so does everything pushed before that. -/
  passed : ∀ i n, w.gates i = .passed n → (job i).channel = some ch →
    Known (val (job i)) w.remote ∧ ∀ p ∈ w.pages.pushed.take n,
      (job p.1).channel = some ch → R (val (job p.1)) (val (job i))
  ordered : (published job ch val w.pages.pushed).Pairwise R

variable {ch : Str} {val : Job → Str} {Known : Str → Remote → Prop} {R : Str → Str → Prop}

theorem ask_passed {o : FeedOptions} {r : Remote} {n m : Nat} {g : Gate}
    (h : o.ask r n g = .passed m) : g = .passed m ∨ m = n ∧ (g = .waiting ∨ g = .tagged) := by
  cases g with
  | waiting =>
    rw [FeedOptions.ask] at h
    split at h
    · split at h <;> cases h
    · split at h
      · cases h
      · cases h; exact .inr ⟨rfl, .inl rfl⟩
  | tagged =>
    rw [FeedOptions.ask] at h
    split at h
    · split at h
      · cases h
      · cases h; exact .inr ⟨rfl, .inr rfl⟩
    · cases h; exact .inr ⟨rfl, .inr rfl⟩
  | passed k => exact .inl h
  | refused => cases h

omit [DecidableEq ι] in
/-- Whoever has pushed last. -/
theorem ChannelInv.last (hw : ChannelInv ch val Known R job w) {l : List (ι × Commit)} {i : ι}
    {c : Commit} (hl : w.pages.pushed = l ++ [(i, c)]) (hi : (job i).channel = some ch)
    {p : ι × Commit} (hp : p ∈ l) (hch : (job p.1).channel = some ch) :
    R (val (job p.1)) (val (job i)) := by
  have hord := hw.ordered
  rw [hl, published, List.filter_append, List.map_append, List.pairwise_append] at hord
  refine hord.2.2 _ (List.mem_map.mpr ⟨p, ?_, rfl⟩) _ (List.mem_map.mpr ⟨(i, c), ?_, rfl⟩)
  · exact List.mem_filter.mpr ⟨hp, by simpa using hch⟩
  · exact List.mem_filter.mpr ⟨List.mem_singleton_self _, by simpa using hi⟩

/-- Whoever has passed after a check had passed before, or has passed it now. -/
theorem setGate_passed {o : FeedOptions} {i k : ι} {m n : Nat}
    (h : (w.setGate i (o.ask w.remote m (w.gates i))).gates k = .passed n) :
    w.gates k = .passed n ∨ k = i ∧ n = m ∧ w.gates i ≠ .passed n ∧
      o.ask w.remote m (w.gates i) = .passed n := by
  rw [FeedWorld.setGate_gates] at h
  split at h
  · rename_i hki
    rcases ask_passed h with hold | ⟨hn, hnew⟩
    · exact .inl (by rw [hki]; exact hold)
    · refine .inr ⟨hki, hn, fun hc ↦ ?_, h⟩
      rcases hnew with hnew | hnew <;> rw [hc] at hnew <;> cases hnew
  · exact .inl h

omit [DecidableEq ι] in
/-- A push by a run that has passed, if nobody of its channel has pushed since. -/
theorem ChannelInv.push (hw : ChannelInv ch val Known R job w) {p : World ι} {i : ι} {c : Commit}
    {n : Nat} (hpush : p.pushed = w.pages.pushed ++ [(i, c)]) (hn : w.gates i = .passed n)
    (hsince : ∀ q ∈ w.pages.pushed.drop n, (job q.1).channel ≠ (job i).channel) :
    ChannelInv ch val Known R job { w with pages := p } := by
  refine ⟨fun k m hk ↦ ?_, fun q hq hch ↦ ?_, fun k m hk hch ↦ ⟨(hw.passed k m hk hch).1, ?_⟩, ?_⟩
  · have := hw.bound k m hk
    show m ≤ p.pushed.length
    rw [hpush, List.length_append]
    omega
  · have hq : q ∈ p.pushed := hq
    rw [hpush] at hq
    rcases List.mem_append.mp hq with hq | hq
    · exact hw.pushed q hq hch
    · rw [List.mem_singleton.mp hq] at hch ⊢
      exact (hw.passed i n hn hch).1
  · show ∀ q ∈ p.pushed.take m, _
    rw [hpush, List.take_append_of_le_length (hw.bound k m hk)]
    exact (hw.passed k m hk hch).2
  · show (published job ch val p.pushed).Pairwise R
    rw [hpush, published, List.filter_append, List.map_append, List.pairwise_append]
    refine ⟨hw.ordered, ?_, ?_⟩
    · by_cases hch : (job i).channel = some ch <;> simp [hch]
    · intro a ha b hb
      obtain ⟨q, hq, rfl⟩ := List.mem_map.mp ha
      obtain ⟨x, hx, rfl⟩ := List.mem_map.mp hb
      obtain ⟨hx, hich⟩ := List.mem_filter.mp hx
      rw [List.mem_singleton.mp hx] at hich ⊢
      obtain ⟨hq, hqch⟩ := List.mem_filter.mp hq
      have hich : (job i).channel = some ch := by simpa using hich
      have hqch : (job q.1).channel = some ch := by simpa using hqch
      rw [← List.take_append_drop n w.pages.pushed] at hq
      rcases List.mem_append.mp hq with hq | hq
      · exact (hw.passed i n hn hich).2 q hq hqch
      · exact absurd (hqch.trans hich.symm) (hsince q hq)

/-- **Checks and pushes of one channel.**  If what the remote knows is never forgotten, and whoever
passes its check knows of nothing newer, then the runs of a channel that keep out of each other's
way publish in order. -/
theorem channelInv_step {anc : Str → Str → Prop} (hpages : w.pages.Inv E req)
    (hknown : ∀ v, Known v w.remote → Known v w'.remote)
    (hask : ∀ i c o ho n m, job i = .feed c o ho → o.channel = ch →
      o.ask w.remote n (w.gates i) = .passed m → w.gates i ≠ .passed m →
      Known (val (job i)) w.remote ∧ ∀ v, Known v w.remote → R v (val (job i)))
    (hw : ChannelInv ch val Known R job w) (h : FeedStep E job req attempts w w')
    (hord : Orderly anc job w w') : ChannelInv ch val Known R job w' := by
  cases h with
  | source r =>
    exact ⟨hw.bound, fun p hp hch ↦ hknown _ (hw.pushed p hp hch),
      fun i n hi hch ↦ ⟨hknown _ (hw.passed i n hi hch).1, (hw.passed i n hi hch).2⟩, hw.ordered⟩
  | ask i c o ho hj =>
    refine ⟨fun k n hk ↦ ?_, hw.pushed, fun k n hk hch ↦ ?_, hw.ordered⟩
    · rcases setGate_passed hk with hold | ⟨-, rfl, -⟩
      · exact hw.bound k n hold
      · exact Nat.le_refl _
    · rcases setGate_passed hk with hold | ⟨rfl, rfl, hne, hnew⟩
      · exact hw.passed k n hold hch
      · have hoch : o.channel = ch := by
          rw [hj, Job.channel] at hch
          exact Option.some.inj hch
        obtain ⟨hk', hall⟩ := hask k c o ho _ _ hj hoch hnew hne
        exact ⟨hk', fun p hp hpch ↦ hall _ (hw.pushed p (List.mem_of_mem_take hp) hpch)⟩
  | pages p h hgate =>
    rcases step_pushed hpages h with ⟨hsame, -⟩ | ⟨i, c, hpush, hrun, -⟩
    · have hsame' : ({ w with pages := p } : FeedWorld ι).pages.pushed = w.pages.pushed := hsame
      exact ⟨fun k n hk ↦ by rw [hsame']; exact hw.bound k n hk,
        fun q hq ↦ hw.pushed q (hsame' ▸ hq),
        fun k n hk hch ↦ ⟨(hw.passed k n hk hch).1,
          fun q hq ↦ (hw.passed k n hk hch).2 q (hsame' ▸ hq)⟩,
        by rw [hsame']; exact hw.ordered⟩
    · obtain ⟨n, hn⟩ := hgate i hrun
      exact hw.push hpush hn (hord.push i c hpush n hn)

/-! ## The two channels -/

variable {anc : Str → Str → Prop}

/-- A commit or one of its ancestors. -/
def Upto (anc : Str → Str → Prop) (a b : Str) : Prop := a = b ∨ anc a b

theorem Upto.trans [IsTrans Str anc] {a b c : Str} (h : Upto anc a b) (h' : Upto anc b c) :
    Upto anc a c := by
  rcases h with rfl | h
  · exact h'
  · rcases h' with rfl | h'
    · exact .inr h
    · exact .inr (IsTrans.trans _ _ _ h h')

/-- The builds of `main`: the remote has had what its tip descends from. -/
def MainInv (anc : Str → Str → Prop) (job : ι → Job) (w : FeedWorld ι) : Prop :=
  ChannelInv mainName Job.sha (fun v r ↦ Upto anc v r.tip) (Upto anc) job w

/-- The releases: the remote has had the tags that it has. -/
def StableInv (job : ι → Job) (w : FeedWorld ι) : Prop :=
  ChannelInv stableName Job.tag (fun v r ↦ v ∈ r.releases) (fun a b ↦ sortKey a ≤ sortKey b) job w

/-- Nobody lifts the check. -/
def Unforced (job : ι → Job) : Prop := ∀ i c o ho, job i = .feed c o ho → o.force = false

/-- Between its two questions a run has a release tag. -/
def TaggedInv (job : ι → Job) (w : FeedWorld ι) : Prop :=
  ∀ i, w.gates i = .tagged →
    (job i).channel = some stableName ∧ (job i).tag ∈ w.remote.releases

theorem taggedInv_step (hforce : Unforced job) (hw : TaggedInv job w)
    (h : FeedStep E job req attempts w w') (hord : Orderly anc job w w') : TaggedInv job w' := by
  intro k hk
  cases h with
  | source r => exact ⟨(hw k hk).1, hord.tags _ (hw k hk).2⟩
  | pages p h hgate => exact hw k hk
  | ask i c o ho hj =>
    rw [FeedWorld.setGate_gates] at hk
    split at hk
    · rename_i hki
      subst hki
      cases hg : w.gates k with
      | waiting =>
        rw [hg, FeedOptions.ask] at hk
        split at hk
        · rename_i hch
          split at hk
          · cases hk
          · rename_i htag
            rw [hj]
            refine ⟨congrArg some hch, tag_mem_releases (options_ok ho) hch ?_⟩
            by_contra hc
            exact htag ⟨hc, hforce k c o ho hj⟩
        · split at hk <;> cases hk
      | tagged => exact hw k hg
      | passed n =>
        rw [hg] at hk
        have hk : Gate.passed n = .tagged := hk
        cases hk
      | refused =>
        rw [hg] at hk
        have hk : Gate.refused = .tagged := hk
        cases hk
    · exact hw k hk

theorem mainInv_step [IsTrans Str anc] (hforce : Unforced job) (hpages : w.pages.Inv E req)
    (htagged : TaggedInv job w) (hw : MainInv anc job w) (h : FeedStep E job req attempts w w')
    (hord : Orderly anc job w w') : MainInv anc job w' := by
  refine channelInv_step hpages (fun v hv ↦ ?_) ?_ hw h hord
  · rcases hord.forward with heq | hanc
    · rw [heq]; exact hv
    · exact hv.trans (.inr hanc)
  · intro i c o ho n m hj hch hask hne
    have hmain : o.channel ≠ stableName := by rw [hch]; decide
    have htip : w.remote.tip = (job i).sha := by
      rw [hj]
      rcases ask_passed hask with hold | ⟨-, hg | hg⟩
      · exact absurd hold hne
      · rw [hg, FeedOptions.ask, if_neg hmain] at hask
        split at hask
        · cases hask
        · rename_i hok
          by_contra hc
          exact hok ⟨hord.tip, hc, hforce i c o ho hj⟩
      · have hch' := (htagged i hg).1
        rw [hj] at hch'
        exact absurd (Option.some.inj hch') hmain
    rw [← htip]
    exact ⟨.inl rfl, fun v hv ↦ hv⟩

theorem stableInv_step (hforce : Unforced job) (hpages : w.pages.Inv E req)
    (htagged : TaggedInv job w) (hw : StableInv job w) (h : FeedStep E job req attempts w w')
    (hord : Orderly anc job w w') : StableInv job w' := by
  refine channelInv_step hpages (fun v hv ↦ hord.tags v hv) ?_ hw h hord
  intro i c o ho n m hj hch hask hne
  have hlatest : w.remote.latest = some (job i).tag := by
    rcases ask_passed hask with hold | ⟨-, hg | hg⟩
    · exact absurd hold hne
    · rw [hg, FeedOptions.ask, if_pos hch] at hask
      split at hask <;> cases hask
    · rw [hg, FeedOptions.ask] at hask
      split at hask
      · rename_i l hl
        split at hask
        · cases hask
        · rename_i hok
          rw [hl, hj]
          by_contra hc
          exact hok ⟨fun he ↦ hc (congrArg some he), hforce i c o ho hj⟩
      · rename_i hnone
        have hmem := (htagged i hg).2
        rw [latest_eq_none hnone] at hmem
        cases hmem
  exact latest_eq_some hlatest

/-- The stamps of a tree of `main` are those of the runs that have pushed, in their order. -/
structure StampInv (anc : Str → Str → Prop) (job : ι → Job) (rel arch : Str) (w : FeedWorld ι) :
    Prop where
  mem : ∀ s ∈ stampedShas rel arch w.pages.pushed, ∃ p ∈ w.pages.pushed,
    (job p.1).channel = some mainName ∧ (job p.1).sha = s
  current : (stampedShas rel arch w.pages.pushed).getLast? =
    stampedSha rel arch (content w.pages.branch)
  ordered : (stampedShas rel arch w.pages.pushed).Pairwise (Upto anc)

omit [DecidableEq ι] in
/-- A stamp that a push leaves behind is the old one or that of the run, and either is the newest so
far. -/
theorem StampInv.push {rel arch : Str} (hrel : '=' ∉ rel) (harch : '=' ∉ arch) {i : ι}
    (hreq : (job i).request = .ok (req i)) (hjob : (job i).Named) (hmain : MainInv anc job w')
    (hw : StampInv anc job rel arch w) {c : Commit} {s : Str}
    (hpush : w'.pages.pushed = w.pages.pushed ++ [(i, c)])
    (happ : applyChanges E (req i) (content w.pages.branch) = some c.tree)
    (hs : stampedSha rel arch c.tree = some s) :
    (∃ q ∈ w'.pages.pushed, (job q.1).channel = some mainName ∧ (job q.1).sha = s) ∧
      ∀ a ∈ stampedShas rel arch w.pages.pushed, Upto anc a s := by
  rcases stampedSha_job hreq hjob hrel harch happ with hsame | ⟨hch, hsha⟩
  · rw [hs, ← hw.current] at hsame
    obtain ⟨l, hl⟩ := List.getLast?_eq_some_iff.mp hsame.symm
    obtain ⟨q, hq, hqs⟩ := hw.mem s (by rw [hl]; simp)
    refine ⟨⟨q, by rw [hpush]; exact List.mem_append_left _ hq, hqs⟩, fun a ha ↦ ?_⟩
    have hord := hw.ordered
    rw [hl] at ha hord
    rcases List.mem_append.mp ha with ha | ha
    · exact (List.pairwise_append.mp hord).2.2 a ha s (List.mem_singleton_self s)
    · exact .inl (List.mem_singleton.mp ha)
  · rw [hs] at hsha
    cases hsha
    refine ⟨⟨(i, c), by rw [hpush]; simp, hch, rfl⟩, fun a ha ↦ ?_⟩
    obtain ⟨q, hq, hqch, rfl⟩ := hw.mem a ha
    exact hmain.last hpush hch hq hqch

theorem stampInv_step {rel arch : Str} (hrel : '=' ∉ rel) (harch : '=' ∉ arch)
    (hreq : ∀ i, (job i).request = .ok (req i)) (hjob : ∀ i, (job i).Named)
    (hpages : w.pages.Inv E req) (hmain : MainInv anc job w') (hw : StampInv anc job rel arch w)
    (h : FeedStep E job req attempts w w') : StampInv anc job rel arch w' := by
  cases h with
  | source r => exact ⟨hw.mem, hw.current, hw.ordered⟩
  | ask i c o ho hj => exact ⟨hw.mem, hw.current, hw.ordered⟩
  | pages p h hgate =>
    rcases step_pushed hpages h with ⟨hsame, hbranch⟩ | ⟨i, c, hpush, -, happ, hbranch⟩
    · refine ⟨?_, ?_, ?_⟩ <;> simp only [hsame, hbranch]
      · exact hw.mem
      · exact hw.current
      · exact hw.ordered
    · have hlist : stampedShas rel arch p.pushed = stampedShas rel arch w.pages.pushed ++
          (stampedSha rel arch c.tree).toList := by
        rw [hpush, stampedShas, List.filterMap_append, stampedShas]
        cases hs : stampedSha rel arch c.tree <;> simp [hs]
      have hold : ∀ s ∈ stampedShas rel arch w.pages.pushed, ∃ q ∈ p.pushed,
          (job q.1).channel = some mainName ∧ (job q.1).sha = s := by
        intro s hs
        obtain ⟨q, hq, hqs⟩ := hw.mem s hs
        exact ⟨q, by rw [hpush]; exact List.mem_append_left _ hq, hqs⟩
      cases hs : stampedSha rel arch c.tree with
      | none =>
        rw [hs, Option.toList_none, List.append_nil] at hlist
        refine ⟨?_, ?_, ?_⟩ <;> simp only [hlist, hbranch]
        · exact hold
        · rcases stampedSha_job (hreq i) (hjob i) hrel harch happ with hsame | ⟨-, hsha⟩
          · rw [hsame]; exact hw.current
          · rw [hs] at hsha; cases hsha
        · exact hw.ordered
      | some s =>
        rw [hs, Option.toList_some] at hlist
        obtain ⟨hmem, hle⟩ := hw.push hrel harch (hreq i) (hjob i) hmain hpush happ hs
        refine ⟨?_, ?_, ?_⟩ <;> simp only [hlist, hbranch]
        · intro a ha
          rcases List.mem_append.mp ha with ha | ha
          · exact hold a ha
          · rw [List.mem_singleton.mp ha]; exact hmem
        · rw [List.getLast?_concat, hs]
        · refine List.pairwise_append.mpr ⟨hw.ordered, List.pairwise_singleton _ _, ?_⟩
          intro a ha b hb
          rw [List.mem_singleton.mp hb]
          exact hle a ha

/-- All of it. -/
structure FeedInv (anc : Str → Str → Prop) (E : Env) (job : ι → Job) (req : ι → Request)
    (w : FeedWorld ι) : Prop where
  pages : w.pages.Inv E req
  tagged : TaggedInv job w
  main : MainInv anc job w
  stable : StableInv job w
  stamps : ∀ rel arch, '=' ∉ rel → '=' ∉ arch → StampInv anc job rel arch w

theorem feedInv_step [IsTrans Str anc] (hreq : ∀ i, (job i).request = .ok (req i))
    (hjob : ∀ i, (job i).Named) (hforce : Unforced job) (hw : FeedInv anc E job req w)
    (h : FeedStep E job req attempts w w') (hord : Orderly anc job w w') :
    FeedInv anc E job req w' := by
  have hmain := mainInv_step hforce hw.pages hw.tagged hw.main h hord
  refine ⟨?_, taggedInv_step hforce hw.tagged h hord, hmain,
    stableInv_step hforce hw.pages hw.tagged hw.stable h hord, fun rel arch hrel harch ↦
      stampInv_step hrel harch hreq hjob hw.pages hmain (hw.stamps rel arch hrel harch) h⟩
  cases h with
  | source r => exact hw.pages
  | ask i c o ho hj => exact hw.pages
  | pages p h hgate => exact inv_step hw.pages h

omit [DecidableEq ι] in
theorem feedInv_start (r : Remote) : FeedInv anc E job req (FeedWorld.start job attempts r) := by
  have hgate : ∀ i n, (FeedWorld.start job attempts r).gates i = .passed n →
      n = 0 ∧ (job i).channel = none := by
    intro i n hi
    simp only [FeedWorld.start] at hi
    cases hj : job i with
    | feed c o ho => rw [hj] at hi; cases hi
    | images c => rw [hj] at hi; cases hi; exact ⟨rfl, rfl⟩
  have hchannel : ∀ ch val Known R,
      ChannelInv ch val Known R job (FeedWorld.start job attempts r) := by
    intro ch val Known R
    refine ⟨fun i n hi ↦ ?_, fun p hp ↦ ?_, fun i n hi hch ↦ ?_, .nil⟩
    · rw [(hgate i n hi).1]
      exact Nat.zero_le _
    · cases hp
    · rw [(hgate i n hi).2] at hch
      cases hch
  refine ⟨inv_start attempts none, fun i hi ↦ ?_, hchannel _ _ _ _, hchannel _ _ _ _, ?_⟩
  · simp only [FeedWorld.start] at hi
    cases hj : job i with
    | feed c o ho => rw [hj] at hi; cases hi
    | images c => rw [hj] at hi; cases hi
  · refine fun rel arch _ _ ↦ ⟨fun s hs ↦ (by cases hs), ?_, .nil⟩
    simp [FeedWorld.start, World.start, stampedShas, stampedSha, content, Tree.read, Tree.get_empty]

end Invariant

/-- **When no channel is rolled back.**  In every run in which `main` only moves forward, no release
tag goes away, and no other run of the same channel pushes between a run's check and its own
push. -/
theorem no_rollback_of_orderly {anc : Str → Str → Prop} [IsStrictOrder Str anc] (E : Env)
    {job : ι → Job} {req : ι → Request} (attempts : ι → Nat) (r : Remote)
    (hreq : ∀ i, (job i).request = .ok (req i)) (hjob : ∀ i, (job i).Named)
    (hforce : Unforced job) {w : FeedWorld ι}
    (h : ReflTransGen (fun w w' ↦ FeedStep E job req attempts w w' ∧ Orderly anc job w w')
      (FeedWorld.start job attempts r) w) : NoRollback anc job w.pages.pushed := by
  have hinv : FeedInv anc E job req w := by
    refine invariant_run ?_ (feedInv_start r) h
    exact fun _ _ hw hstep ↦ feedInv_step hreq hjob hforce hw hstep.1 hstep.2
  refine ⟨fun rel arch hrel harch ↦ ?_, hinv.stable.ordered⟩
  refine (hinv.stamps rel arch hrel harch).ordered.imp fun hab hba ↦ ?_
  rcases hab with rfl | hab
  · exact irrefl _ hba
  · exact irrefl _ (IsTrans.trans _ _ _ hab hba)

/-! ### A run that meets nobody -/

section Alone

variable (Q : Prop) (anc : Str → Str → Prop) (E : Env) (job : ι → Job) (req : ι → Request)

/-- A step, and an orderly one if `Q`. -/
def StepIf (w w' : FeedWorld ι) : Prop :=
  FeedStep E job req (fun _ ↦ 10) w w' ∧ (Q → Orderly anc job w w')

variable {anc job}

omit [DecidableEq ι] in
theorem orderly_of_remote {w w' : FeedWorld ι} (hr : w'.remote = w.remote)
    (htip : w.remote.tip ≠ [])
    (hpush : ∀ i c, w'.pages.pushed = w.pages.pushed ++ [(i, c)] → ∀ n, w.gates i = .passed n →
      ∀ p ∈ w.pages.pushed.drop n, (job p.1).channel ≠ (job i).channel) : Orderly anc job w w' :=
  ⟨htip, .inl (by rw [hr]), fun t ht ↦ by rw [hr]; exact ht, hpush⟩

variable (anc)

theorem stepIf_ask (w : FeedWorld ι) (i : ι) {c : FeedCall} {o : FeedOptions}
    {ho : c.options = .ok o} (hj : job i = .feed c o ho) {g : Gate}
    (hg : o.ask w.remote w.pages.pushed.length (w.gates i) = g) (hQ : Q → w.remote.tip ≠ []) :
    StepIf Q anc E job req w (w.setGate i g) := by
  subst hg
  refine ⟨.ask w i c o ho hj, fun q ↦ orderly_of_remote rfl (hQ q) fun k x hx ↦ ?_⟩
  have hx : w.pages.pushed = w.pages.pushed ++ [(k, x)] := hx
  simp at hx

/-- A step of one run, which has passed, on the branch; if it pushes, then nobody of its channel has
pushed since. -/
theorem stepIf_pages (w : FeedWorld ι) (i : ι) {n : Nat} (hg : w.gates i = .passed n)
    (hQ : Q → w.remote.tip ≠ [] ∧
      ∀ p ∈ w.pages.pushed.drop n, (job p.1).channel ≠ (job i).channel) {p p' : World ι}
    (h : Step E req (fun _ ↦ 10) p p') (hruns : ∀ j, j ≠ i → p'.runs j = p.runs j)
    (hpush : p'.pushed = p.pushed ∨
      p.pushed = w.pages.pushed ∧ ∃ c, p'.pushed = p.pushed ++ [(i, c)]) :
    StepIf Q anc E job req { w with pages := p } { w with pages := p' } := by
  refine ⟨.pages { w with pages := p } p' h fun j hj ↦ ⟨n, ?_⟩, fun q ↦
    orderly_of_remote rfl (hQ q).1 fun k c hk m hm ↦ ?_⟩
  · by_cases hji : j = i
    · rw [hji]; exact hg
    · exact absurd (hruns j hji) hj
  · have hk : p'.pushed = p.pushed ++ [(k, c)] := hk
    rcases hpush with hsame | ⟨hold, c', hnew⟩
    · rw [hsame] at hk
      simp at hk
    · rw [hnew] at hk
      obtain ⟨rfl, -⟩ := Prod.mk.inj (List.cons.inj (List.append_cancel_left hk)).1
      rw [show w.gates i = .passed m from hm] at hg
      cases hg
      have hQ' := (hQ q).2
      rw [← hold] at hQ'
      exact hQ'

/-- A run that has passed reads the branch, applies its request and pushes. -/
theorem run_alone (w : FeedWorld ι) (i : ι) {n : Nat} (hg : w.gates i = .passed n)
    (hstart : w.pages.runs i = Run.start 10) {t : Site}
    (ht : applyChanges E (req i) (content w.pages.branch) = some t)
    (hne : ∀ c, w.pages.branch = some c → t ≠ c.tree)
    (hQ : Q → w.remote.tip ≠ [] ∧
      ∀ p ∈ w.pages.pushed.drop n, (job p.1).channel ≠ (job i).channel) :
    ∃ (p : World ι) (c : Commit), c.tree = t ∧ p.pushed = w.pages.pushed ++ [(i, c)] ∧
      p.branch = some c ∧ (∀ j, j ≠ i → p.runs j = w.pages.runs j) ∧
      ReflTransGen (StepIf Q anc E job req) w { w with pages := p } := by
  obtain ⟨r, hphase, hold, hsite, hread⟩ : ∃ r : Run, r.phase = .read ∧ r.old = w.pages.branch ∧
      r.site = content w.pages.branch ∧
      Step E req (fun _ ↦ 10) w.pages (w.pages.set i r) := by
    cases hb : w.pages.branch with
    | none =>
      refine ⟨_, rfl, rfl, rfl, .init w.pages i ?_ ?_ hb⟩
      · rw [hstart]; rfl
      · rw [hstart]; rfl
    | some c =>
      refine ⟨_, rfl, rfl, rfl, .clone w.pages i c ?_ ?_ hb⟩
      · rw [hstart]; rfl
      · rw [hstart]; rfl
  have hset : ∀ (p : World ι) (x : Run), (p.set i x).runs i = x := fun p x ↦ by
    rw [World.set_runs, if_pos rfl]
  have hother : ∀ (p : World ι) (x : Run) (j : ι), j ≠ i → (p.set i x).runs j = p.runs j :=
    fun p x j hj ↦ by rw [World.set_runs, if_neg hj]
  let p₁ := w.pages.set i r
  have happly : Step E req (fun _ ↦ 10) p₁
      (p₁.set i { p₁.runs i with phase := .applied, site := t }) := by
    refine .apply p₁ i t (by rw [hset, hphase]) ?_
    rw [hset, hsite]
    exact ht
  let p₂ := p₁.set i { p₁.runs i with phase := .applied, site := t }
  have hold₂ : (p₂.runs i).old = w.pages.branch := by
    rw [hset, hset]
    exact hold
  have hpush : Step E req (fun _ ↦ 10) p₂ _ := .push p₂ i 0 (by rw [hset])
    (fun c hc ↦ by rw [hset]; exact hne c (hold₂.symm.trans hc)) hold₂.symm
  refine ⟨_, ⟨(p₂.runs i).site, (req i).msg, 0⟩, by rw [hset], rfl, rfl, ?_,
    .head (stepIf_pages Q anc E req w i hg hQ hread (hother _ _) (.inl rfl))
      (.head (stepIf_pages Q anc E req w i hg hQ happly (hother _ _) (.inl rfl))
        (.single (stepIf_pages Q anc E req w i hg hQ hpush (hother _ _) (.inr ⟨rfl, _, rfl⟩))))⟩
  intro j hj
  show ((p₂.set i _).runs j) = w.pages.runs j
  rw [hother _ _ j hj, hother _ _ j hj, hother _ _ j hj]

end Alone

/-! ### Two builds of `main` -/

/-- The build of one commit of `main`. -/
def mainCall (sha : Str) : FeedCall :=
  { releaseCall with
    machine := { releaseCall.machine with
      args := ["--dir".toList, "fresh".toList, "--channel".toList, "main".toList,
        "--sha".toList, sha, "--run".toList, sha] } }

def mainOptions (sha : Str) : FeedOptions where
  dir := "fresh".toList
  channel := "main".toList
  sha := sha
  run := sha

/-- The builds of the commits `a` and `b`. -/
def mainJob : Bool → Job
  | false => .feed (mainCall ['a']) (mainOptions ['a']) (by rfl)
  | true => .feed (mainCall ['b']) (mainOptions ['b']) (by rfl)

def mainRequest (i : Bool) : Request := (mainJob i).request.toOption.getD (toolRequest [])

theorem mainJob_request : ∀ i, (mainJob i).request = .ok (mainRequest i)
  | false => by rfl
  | true => by rfl

theorem mainJob_named : ∀ i, (mainJob i).Named := by
  have hnamed : ∀ d ∈ releaseCall.trees releaseOptions,
      relOf d ≠ [] ∧ archOf d ≠ [] ∧ relOf d ∉ reserved := releaseJob_named
  rintro (_ | _)
  · exact hnamed
  · exact hnamed

theorem mainJob_unforced : Unforced mainJob := by
  rintro (_ | _) c o ho hj
  · cases hj; rfl
  · cases hj; rfl

/-- `b` comes after `a`. -/
def aBeforeB (x y : Str) : Prop := x = ['a'] ∧ y = ['b']

instance : IsStrictOrder Str aBeforeB where
  irrefl x h := by
    obtain ⟨rfl, h⟩ := h
    cases h
  trans x y z h h' := by
    obtain ⟨rfl, rfl⟩ := h
    obtain ⟨h', -⟩ := h'
    cases h'

/-- `main` at one of them. -/
def remoteAt (tip : Str) : Remote := ⟨tip, [], by simp⟩

/-- The stamps of the only tree after two builds, one after the other. -/
def stampsAfter (i j : Bool) : Option (Option Str × Option Str) := do
  let t ← applyChanges sampleEnv (mainRequest i) Tree.empty
  let u ← applyChanges sampleEnv (mainRequest j) t
  some (stampedSha "25.12".toList "x86_64".toList t, stampedSha "25.12".toList "x86_64".toList u)

theorem stampsAfter_eq : stampsAfter false true = some (some ['a'], some ['b']) ∧
    stampsAfter true false = some (some ['b'], some ['a']) := by
  decide +kernel

/-- What two builds push, one after the other. -/
theorem exists_of_stampsAfter {i j : Bool} {a b : Str}
    (h : stampsAfter i j = some (some a, some b)) :
    ∃ t u, applyChanges sampleEnv (mainRequest i) Tree.empty = some t ∧
      applyChanges sampleEnv (mainRequest j) t = some u ∧
      stampedSha "25.12".toList "x86_64".toList t = some a ∧
      stampedSha "25.12".toList "x86_64".toList u = some b := by
  obtain ⟨t, ht, h⟩ := Option.bind_eq_some_iff.mp h
  obtain ⟨u, hu, h⟩ := Option.bind_eq_some_iff.mp h
  obtain ⟨ha, hb⟩ := Prod.mk.inj (Option.some.inj h)
  exact ⟨t, u, ht, hu, ha, hb⟩


theorem stampedShas_two {i j : Bool} {c c' : Commit} {a b : Str}
    (ha : stampedSha "25.12".toList "x86_64".toList c.tree = some a)
    (hb : stampedSha "25.12".toList "x86_64".toList c'.tree = some b) :
    stampedShas "25.12".toList "x86_64".toList [(i, c), (j, c')] = [a, b] := by
  simp only [stampedShas, List.filterMap_cons, ha, hb, List.filterMap_nil]

/-- Run `a` publishes, then `main` moves on and run `b` publishes. -/
theorem no_rollback_of_orderly_two : ∃ w : FeedWorld Bool,
    ReflTransGen (fun w w' ↦ FeedStep sampleEnv mainJob mainRequest (fun _ ↦ 10) w w' ∧
      Orderly aBeforeB mainJob w w') (FeedWorld.start mainJob (fun _ ↦ 10) (remoteAt ['a'])) w ∧
    stampedShas "25.12".toList "x86_64".toList w.pages.pushed = [['a'], ['b']] ∧
      NoRollback aBeforeB mainJob w.pages.pushed := by
  obtain ⟨t, u, ht, hu, hta, hub⟩ := exists_of_stampsAfter stampsAfter_eq.1
  let w₀ := FeedWorld.start mainJob (fun _ ↦ 10) (remoteAt ['a'])
  let w₁ := w₀.setGate false (.passed 0)
  have h₁ : StepIf True aBeforeB sampleEnv mainJob mainRequest w₀ w₁ :=
    stepIf_ask True aBeforeB sampleEnv mainRequest w₀ false rfl rfl fun _ ↦ by decide
  obtain ⟨p, c, rfl, hpush, hbranch, hruns, hrun⟩ := run_alone True aBeforeB sampleEnv mainRequest
    w₁ false rfl rfl ht (fun c hc ↦ by cases hc) fun _ ↦ ⟨by decide, fun q hq ↦ by cases hq⟩
  let w₂ : FeedWorld Bool := { w₁ with pages := p }
  let w₃ : FeedWorld Bool := { w₂ with remote := remoteAt ['b'] }
  have h₃ : StepIf True aBeforeB sampleEnv mainJob mainRequest w₂ w₃ := by
    refine ⟨.source w₂ _, fun _ ↦
      ⟨List.cons_ne_nil _ _, .inr ⟨rfl, rfl⟩, fun t ht ↦ ht, fun i x hx ↦ ?_⟩⟩
    have hx : p.pushed = p.pushed ++ [(i, x)] := hx
    simp at hx
  let w₄ := w₃.setGate true (.passed 1)
  have h₄ : StepIf True aBeforeB sampleEnv mainJob mainRequest w₃ w₄ := by
    refine stepIf_ask True aBeforeB sampleEnv mainRequest w₃ true rfl ?_ fun _ ↦
      List.cons_ne_nil _ _
    rw [show w₃.pages.pushed = _ from hpush]
    rfl
  have hcontent : content p.branch = c.tree := by rw [hbranch]; rfl
  obtain ⟨p', c', rfl, hpush', -, -, hrun'⟩ := run_alone True aBeforeB sampleEnv mainRequest
    w₄ true rfl (hruns true (by decide)) (by rw [← hcontent] at hu; exact hu) (fun x hx ↦ by
      have hx : p.branch = some x := hx
      rw [hbranch] at hx
      cases hx
      intro heq
      rw [heq, hta] at hub
      cases hub) fun _ ↦ ⟨List.cons_ne_nil _ _, fun q hq ↦ by
        have hq : q ∈ p.pushed.drop 1 := hq
        rw [hpush] at hq
        cases hq⟩
  have hall : w₄.pages.pushed ++ [(true, c')] = [(false, c), (true, c')] := by
    rw [show w₄.pages.pushed = _ from hpush]
    rfl
  have horderly : ReflTransGen (fun w w' ↦
      FeedStep sampleEnv mainJob mainRequest (fun _ ↦ 10) w w' ∧ Orderly aBeforeB mainJob w w')
        w₀ { w₄ with pages := p' } := by
    have hsteps := (((ReflTransGen.single h₁).trans hrun).tail h₃).tail h₄ |>.trans hrun'
    refine ReflTransGen.mono ?_ _ _ hsteps
    exact fun _ _ h ↦ ⟨h.1, h.2 trivial⟩
  refine ⟨{ w₄ with pages := p' }, horderly, ?_, ?_⟩
  · rw [show ({ w₄ with pages := p' } : FeedWorld Bool).pages.pushed = _ from hpush'.trans hall]
    exact stampedShas_two hta hub
  · exact no_rollback_of_orderly sampleEnv (fun _ ↦ 10) (remoteAt ['a']) mainJob_request
      mainJob_named mainJob_unforced horderly

/-- Run `a` passes its check, `main` moves on, run `b` passes its own and publishes; then run `a`
publishes the older commit over it. -/
theorem rolls_back : ∃ w : FeedWorld Bool,
    ReflTransGen (FeedStep sampleEnv mainJob mainRequest fun _ ↦ 10)
      (FeedWorld.start mainJob (fun _ ↦ 10) (remoteAt ['a'])) w ∧
    stampedShas "25.12".toList "x86_64".toList w.pages.pushed = [['b'], ['a']] ∧
    ¬NoRollback aBeforeB mainJob w.pages.pushed := by
  obtain ⟨t, u, ht, hu, hta, hub⟩ := exists_of_stampsAfter stampsAfter_eq.2
  let w₀ := FeedWorld.start mainJob (fun _ ↦ 10) (remoteAt ['a'])
  let w₁ := w₀.setGate false (.passed 0)
  let w₂ : FeedWorld Bool := { w₁ with remote := remoteAt ['b'] }
  let w₃ := w₂.setGate true (.passed 0)
  have h₁ : StepIf False aBeforeB sampleEnv mainJob mainRequest w₀ w₁ :=
    stepIf_ask False aBeforeB sampleEnv mainRequest w₀ false rfl rfl False.elim
  have h₂ : StepIf False aBeforeB sampleEnv mainJob mainRequest w₁ w₂ :=
    ⟨.source w₁ _, False.elim⟩
  have h₃ : StepIf False aBeforeB sampleEnv mainJob mainRequest w₂ w₃ :=
    stepIf_ask False aBeforeB sampleEnv mainRequest w₂ true rfl rfl False.elim
  obtain ⟨p, c, rfl, hpush, hbranch, hruns, hrun⟩ := run_alone False aBeforeB sampleEnv mainRequest
    w₃ true rfl rfl ht (fun c hc ↦ by cases hc) False.elim
  have hcontent : content p.branch = c.tree := by rw [hbranch]; rfl
  obtain ⟨p', c', rfl, hpush', -, -, hrun'⟩ := run_alone False aBeforeB sampleEnv mainRequest
    { w₃ with pages := p } false rfl (hruns false (by decide))
    (by rw [← hcontent] at hu; exact hu) (fun x hx ↦ by
      have hx : p.branch = some x := hx
      rw [hbranch] at hx
      cases hx
      intro heq
      rw [heq, hta] at hub
      cases hub) False.elim
  have hall : p'.pushed = [(true, c), (false, c')] := by
    rw [hpush', show ({ w₃ with pages := p } : FeedWorld Bool).pages.pushed = _ from hpush]
    rfl
  have hstamps : stampedShas "25.12".toList "x86_64".toList p'.pushed = [['b'], ['a']] := by
    rw [hall]
    exact stampedShas_two hta hub
  refine ⟨{ w₃ with pages := p' }, ?_, hstamps, fun hno ↦ ?_⟩
  · have hsteps := ((((ReflTransGen.single h₁).tail h₂).tail h₃).trans hrun).trans hrun'
    refine ReflTransGen.mono ?_ _ _ hsteps
    exact fun _ _ h ↦ h.1
  · have hmain := hno.main "25.12".toList "x86_64".toList (by decide) (by decide)
    rw [hstamps] at hmain
    exact (List.pairwise_pair.mp hmain) ⟨rfl, rfl⟩

end OpenwrtFeed
