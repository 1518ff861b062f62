import OpenwrtFeed.Mhi.Channel

/-!
# Writing to a character device

`mhi_uci_write` cuts what the user writes into pieces of the size of the MTU and queues one after
another, waiting for a free descriptor before each of them.  The pieces of one write are chained, so
that the modem takes them as one transfer; only the last one ends it, or one that takes the last
free descriptor.

What happens around the loop is given by its answers, iteration by iteration.
-/

set_option autoImplicit false

namespace OpenwrtFeed.Mhi

/-- `enum MHI_FLAGS`, as far as `mhi_uci_write` uses it -/
inductive MhiFlags where
  | eot
  | chain
  deriving DecidableEq, Repr

/-- What `mhi_uci_write` finds in an iteration. -/
structure WriteEnv where
  /-- `mhi_get_no_free_descriptors`, before it waits -/
  before : Nat := 1
  /-- Whether a signal ends the wait. -/
  interrupted : Bool := false
  /-- `uci_dev->enabled` behind the wait -/
  enabled : Bool := true
  /-- `mhi_get_no_free_descriptors`, when it ends the wait -/
  nrAvail : Nat := 1
  /-- Whether `kmalloc` succeeds. -/
  alloc : Bool := true
  /-- How many bytes `copy_from_user` does not copy. -/
  fault : Nat := 0
  /-- `uci_dev->enabled` under the lock -/
  stillEnabled : Bool := true
  /-- The error that `mhi_queue_transfer` returns, if it is one. -/
  refused : Option Errno := none
  deriving DecidableEq, Repr

/-- A piece that was queued. -/
structure Piece where
  data : List UInt8
  flags : MhiFlags
  deriving DecidableEq, Repr

namespace UciWrite

def einval : Int := -22
def eagain : Int := -11
def enomem : Int := -12
def erestartsys : Int := -512

/-- The value of `ret` for an answer of `mhi_queue_transfer`. -/
def errnoRet : Option Errno → Int
  | none => 0
  | some .enomem => enomem
  | some .eio => -5

/-- The value of `ret` behind `mhi_queue_transfer`. -/
def queueRet (env : WriteEnv) : Int :=
  if env.stillEnabled then errnoRet env.refused else erestartsys

/-- How an iteration ends: with an error, or with a piece that was queued. -/
def iterate (mtu : Nat) (nonblock : Bool) (env : WriteEnv) (buf : List UInt8) : Except Int Piece :=
  if env.before = 0 ∧ nonblock then .error eagain
  else if env.interrupted ∨ ¬ env.enabled then .error erestartsys
  else
    let xferSize := min buf.length mtu
    if ¬ env.alloc then .error enomem
    else if env.fault ≠ 0 then .error env.fault
    else
      let flags := if 1 < env.nrAvail ∧ buf.length - xferSize ≠ 0 then .chain else .eot
      if queueRet env ≠ 0 then .error (queueRet env) else .ok ⟨buf.take xferSize, flags⟩

/-- The loop of `mhi_uci_write`, from iteration `i` on: what it returns, and what it queues. -/
def loop (mtu : Nat) (nonblock : Bool) (env : Nat → WriteEnv) :
    Nat → Nat → Nat → List UInt8 → Int × List Piece
  | 0, _, bytesXfered, _ => (bytesXfered, [])
  | fuel + 1, i, bytesXfered, buf =>
    if buf.length = 0 then (bytesXfered, [])
    else
      match iterate mtu nonblock (env i) buf with
      | .error ret => (ret, [])
      | .ok piece =>
        let xferSize := min buf.length mtu
        let rest := loop mtu nonblock env fuel (i + 1) (bytesXfered + xferSize) (buf.drop xferSize)
        (rest.1, piece :: rest.2)

/-- `mhi_uci_write` -/
def mhiUciWrite (mtu : Nat) (nonblock : Bool) (rxError : Nat) (enabled : Bool)
    (env : Nat → WriteEnv) (buf : List UInt8) : Int × List Piece :=
  if buf.length = 0 ∨ rxError ≠ 0 then (einval, [])
  else if ¬ enabled then (erestartsys, [])
  -- each iteration takes at least one byte
  else loop mtu nonblock env buf.length 0 0 buf

variable {mtu : Nat} {nonblock : Bool} {env : Nat → WriteEnv} {buf : List UInt8}

/-- What an iteration queues. -/
theorem iterate_ok {e : WriteEnv} {piece : Piece} (h : iterate mtu nonblock e buf = .ok piece) :
    piece.data = buf.take (min buf.length mtu) ∧
      (piece.flags = .chain ↔ 1 < e.nrAvail ∧ buf.length - min buf.length mtu ≠ 0) := by
  rw [iterate] at h
  split at h
  · exact absurd h (by simp)
  split at h
  · exact absurd h (by simp)
  simp only at h
  split at h
  · exact absurd h (by simp)
  split at h
  · exact absurd h (by simp)
  split at h
  · exact absurd h (by simp)
  · rw [Except.ok.injEq] at h
    rw [← h]
    refine ⟨rfl, ?_⟩
    split <;> simp_all

theorem queueRet_le (e : WriteEnv) : queueRet e ≤ 0 := by
  rw [queueRet]
  split
  · rcases e.refused with _ | _ | _ <;> decide
  · decide

/-- What it returns if it does not: an error, or how many bytes `copy_from_user` has not copied. -/
theorem iterate_error {e : WriteEnv} {ret : Int} (h : iterate mtu nonblock e buf = .error ret) :
    ret < 0 ∨ e.fault ≠ 0 ∧ ret = e.fault := by
  rw [iterate] at h
  split at h
  · rw [← Except.error.inj h]
    exact .inl (by decide)
  split at h
  · rw [← Except.error.inj h]
    exact .inl (by decide)
  simp only at h
  split at h
  · rw [← Except.error.inj h]
    exact .inl (by decide)
  split at h
  · rename_i hne
    exact .inr ⟨hne, (Except.error.inj h).symm⟩
  split at h
  · rename_i hne
    rw [← Except.error.inj h]
    exact .inl (Int.lt_iff_le_and_ne.mpr ⟨queueRet_le e, hne⟩)
  · exact absurd h (by simp)

/-- What the loop has done when it returns. -/
structure Outcome (mtu i bytesXfered : Nat) (env : Nat → WriteEnv) (buf : List UInt8) (ret : Int)
    (pieces : List Piece) : Prop where
  /-- Either everything was queued, and the last piece ends the transfer, or there is an error, or
  `copy_from_user` has failed, and then the number of bytes that it has not copied is returned. -/
  result : ret = bytesXfered + buf.length ∧ pieces.flatMap Piece.data = buf ∧
      (∀ p, pieces.getLast? = some p → p.flags = .eot) ∨
    (ret < 0 ∨ (env (i + pieces.length)).fault ≠ 0 ∧ ret = (env (i + pieces.length)).fault) ∧
      (∃ rest, rest ≠ [] ∧ pieces.flatMap Piece.data ++ rest = buf) ∧
      ∀ p ∈ pieces, p.data.length = mtu
  size : ∀ p ∈ pieces, 0 < p.data.length ∧ p.data.length ≤ mtu
  /-- A piece that does not end the transfer leaves a descriptor for the next one. -/
  chained : ∀ k p, pieces[k]? = some p → p.flags = .chain → 1 < (env (i + k)).nrAvail

/-- An iteration before the others. -/
theorem Outcome.cons {i bytesXfered : Nat} {ret : Int} {pieces : List Piece} {piece : Piece}
    (hmtu : 0 < mtu) (hlen : buf.length ≠ 0) (hit : iterate mtu nonblock (env i) buf = .ok piece)
    (h : Outcome mtu (i + 1) (bytesXfered + min buf.length mtu) env
      (buf.drop (min buf.length mtu)) ret pieces) :
    Outcome mtu i bytesXfered env buf ret (piece :: pieces) := by
  obtain ⟨hdata, hflags⟩ := iterate_ok hit
  have hpiece : piece.data.length = min buf.length mtu := by
    rw [hdata, List.length_take]
    omega
  have hcut : piece.data ++ buf.drop (min buf.length mtu) = buf := by
    rw [hdata, List.take_append_drop]
  refine ⟨?_, ?_, ?_⟩
  · rcases h.result with ⟨hret, hall, hlast⟩ | ⟨hret, ⟨rest, hne, hall⟩, hfull⟩
    · refine .inl ⟨?_, by rw [List.flatMap_cons, hall, hcut], fun p hp ↦ ?_⟩
      · rw [List.length_drop] at hret
        omega
      · cases pieces with
        | nil =>
          obtain rfl : piece = p := Option.some.inj hp
          have hdrop : buf.length - min buf.length mtu = 0 := by
            rw [← List.length_drop, ← hall]
            rfl
          cases hf : piece.flags with
          | eot => rfl
          | chain => exact absurd hdrop (hflags.mp hf).2
        | cons p' pieces => exact hlast p hp
    · have hmore : 0 < (buf.drop (min buf.length mtu)).length := by
        rw [← hall, List.length_append]
        exact Nat.add_pos_right _ (List.length_pos_iff.mpr hne)
      rw [List.length_drop] at hmore
      rw [Nat.add_right_comm] at hret
      refine .inr ⟨hret, ⟨rest, hne, ?_⟩, fun p hp ↦ ?_⟩
      · rw [List.flatMap_cons, List.append_assoc, hall, hcut]
      · rcases List.mem_cons.mp hp with rfl | hp
        · omega
        · exact hfull p hp
  · intro p hp
    rcases List.mem_cons.mp hp with rfl | hp
    · omega
    · exact h.size p hp
  · intro k p hk hf
    cases k with
    | zero =>
      obtain rfl : piece = p := Option.some.inj hk
      exact (hflags.mp hf).1
    | succ k =>
      have hnext := h.chained k p hk hf
      rwa [Nat.add_right_comm] at hnext

theorem loop_outcome (hmtu : 0 < mtu) (fuel i bytesXfered : Nat) (buf : List UInt8)
    (hfuel : buf.length ≤ fuel) :
    Outcome mtu i bytesXfered env buf (loop mtu nonblock env fuel i bytesXfered buf).1
      (loop mtu nonblock env fuel i bytesXfered buf).2 := by
  induction fuel generalizing i bytesXfered buf with
  | zero =>
    have hnil : buf = [] := List.length_eq_zero_iff.mp (Nat.le_zero.mp hfuel)
    subst hnil
    exact ⟨.inl ⟨by simp [loop], rfl, by simp [loop]⟩, by simp [loop], by simp [loop]⟩
  | succ fuel ih =>
    rw [loop]
    by_cases hlen : buf.length = 0
    · have hnil : buf = [] := List.length_eq_zero_iff.mp hlen
      subst hnil
      exact ⟨.inl ⟨by simp, rfl, by simp⟩, by simp, by simp⟩
    · rw [if_neg hlen]
      cases hit : iterate mtu nonblock (env i) buf with
      | error ret =>
        refine ⟨.inr ⟨iterate_error hit, ⟨buf, ?_, rfl⟩, by simp⟩, by simp, by simp⟩
        exact fun hnil ↦ hlen (List.length_eq_zero_iff.mpr hnil)
      | ok piece =>
        refine (ih (i + 1) (bytesXfered + min buf.length mtu)
          (buf.drop (min buf.length mtu)) ?_).cons hmtu hlen hit
        rw [List.length_drop]
        omega

/-- An iteration in which nothing goes wrong. -/
def fine (nonblock : Bool) (env : WriteEnv) : Prop :=
  (0 < env.before ∨ nonblock = false) ∧ env.interrupted = false ∧ env.enabled = true ∧
    env.alloc = true ∧ env.fault = 0 ∧ env.stillEnabled = true ∧ env.refused = none

theorem iterate_of_fine {e : WriteEnv} (h : fine nonblock e) (mtu : Nat) (buf : List UInt8) :
    ∃ piece, iterate mtu nonblock e buf = .ok piece := by
  obtain ⟨hbefore, hint, hen, halloc, hfault, hstill, hret⟩ := h
  have hwait : ¬ (e.before = 0 ∧ nonblock = true) := by
    rintro ⟨hzero, rfl⟩
    rcases hbefore with hpos | hblock
    · omega
    · exact Bool.false_ne_true hblock.symm
  have hqueue : queueRet e = 0 := by
    rw [queueRet, if_pos hstill, hret]
    rfl
  rw [iterate, if_neg hwait, if_neg (by simp [hint, hen])]
  simp only [halloc, hfault, hqueue]
  exact ⟨_, rfl⟩

theorem loop_of_fine (hmtu : 0 < mtu) (hfine : ∀ i, fine nonblock (env i))
    (fuel i bytesXfered : Nat) (buf : List UInt8) (hfuel : buf.length ≤ fuel) :
    (loop mtu nonblock env fuel i bytesXfered buf).1 = bytesXfered + buf.length := by
  induction fuel generalizing i bytesXfered buf with
  | zero =>
    rw [loop, Nat.le_zero.mp hfuel]
    rfl
  | succ fuel ih =>
    rw [loop]
    by_cases hlen : buf.length = 0
    · rw [if_pos hlen, hlen]
      rfl
    · obtain ⟨piece, hit⟩ := iterate_of_fine (hfine i) mtu buf
      have hrest := ih (i + 1) (bytesXfered + min buf.length mtu) (buf.drop (min buf.length mtu))
        (by rw [List.length_drop]; omega)
      rw [if_neg hlen, hit]
      simp only [hrest, List.length_drop]
      omega

/-- **A write is queued as a whole, or it is not finished.**  What `mhi_uci_write` queues are pieces
of what is written, in order, none of them empty or longer than the MTU.  If everything is queued it
returns the number of bytes, and the last piece ends the transfer.  Otherwise it has queued less, in
pieces of the full size, of which the modem is not told that they are not followed by others, and
returns an error; or, if `copy_from_user` fails, the number of bytes that this has not copied, as if
so many were written.  No piece is chained to a next one for which there was no descriptor.  And if
nothing goes wrong, everything is queued. -/
theorem write_outcome (mtu : Nat) (hmtu : 0 < mtu) (nonblock : Bool) (rxError : Nat)
    (enabled : Bool) (env : Nat → WriteEnv) (buf : List UInt8) (hbuf : buf ≠ []) :
    Outcome mtu 0 0 env buf (mhiUciWrite mtu nonblock rxError enabled env buf).1
        (mhiUciWrite mtu nonblock rxError enabled env buf).2 ∧
      (rxError = 0 → enabled = true → (∀ i, fine nonblock (env i)) →
        (mhiUciWrite mtu nonblock rxError enabled env buf).1 = buf.length) := by
  have hlen : buf.length ≠ 0 := fun h ↦ hbuf (List.length_eq_zero_iff.mp h)
  have hrefuse : ∀ ret : Int, ret < 0 → Outcome mtu 0 0 env buf ret [] := fun ret hneg ↦
    ⟨.inr ⟨.inl hneg, ⟨buf, hbuf, rfl⟩, by simp⟩, by simp, by simp⟩
  rw [mhiUciWrite]
  split
  · rename_i hinval
    exact ⟨hrefuse einval (by decide), fun herr ↦ absurd herr (hinval.resolve_left hlen)⟩
  split
  · rename_i hoff
    exact ⟨hrefuse erestartsys (by decide), fun _ hen ↦ absurd hen hoff⟩
  · refine ⟨loop_outcome hmtu buf.length 0 0 buf (Nat.le_refl _), fun _ _ hfine ↦ ?_⟩
    rw [loop_of_fine hmtu hfine buf.length 0 0 buf (Nat.le_refl _)]
    exact Int.zero_add _

/-- Five bytes with an MTU of two, when the second piece takes the last descriptor. -/
def sampleEnv (i : Nat) : WriteEnv := { nrAvail := [3, 1].getD i 1 }

/-- The same, when `copy_from_user` cannot copy one byte of the second piece. -/
def sampleFault (i : Nat) : WriteEnv := { nrAvail := 3, fault := [0, 1].getD i 0 }

theorem write_outcome_sample :
    mhiUciWrite 2 true 0 true sampleEnv [1, 2, 3, 4, 5] =
        (5, [⟨[1, 2], .chain⟩, ⟨[3, 4], .eot⟩, ⟨[5], .eot⟩]) ∧
      (mhiUciWrite 2 true 0 true sampleEnv [1, 2, 3, 4, 5]).1 = 5 ∧
      mhiUciWrite 2 true 0 true sampleFault [1, 2, 3, 4, 5] = (1, [⟨[1, 2], .chain⟩]) ∧
      Outcome 2 0 0 sampleFault [1, 2, 3, 4, 5] 1 [⟨[1, 2], .chain⟩] := by
  have hwrite := write_outcome 2 Nat.two_pos true 0 true sampleEnv [1, 2, 3, 4, 5] (by simp)
  have hfault := (write_outcome 2 Nat.two_pos true 0 true sampleFault [1, 2, 3, 4, 5] (by simp)).1
  have hresult : mhiUciWrite 2 true 0 true sampleFault [1, 2, 3, 4, 5] =
    (1, [⟨[1, 2], .chain⟩]) := by decide +kernel
  rw [hresult] at hfault
  refine ⟨by decide +kernel, hwrite.2 rfl rfl fun i ↦ ?_, hresult, hfault⟩
  exact ⟨.inl Nat.one_pos, rfl, rfl, rfl, rfl, rfl, rfl⟩

end UciWrite

end OpenwrtFeed.Mhi
