import VideoEditorOffloading.SegmentedStreams

/-! # Reading and writing on sockets

`Nread` and `Nwrite` of the native bandwidth test repeat the calls that a signal has interrupted. A
call that never ends, and one that the language leaves undefined, have no result. -/
namespace Iperf

open SegmentedStreams

inductive Errno where
  | EINTR
  | ENOBUFS
  | other
  deriving DecidableEq, Repr

abbrev Reads := List (Arrival UInt8 Errno)

abbrev Writes := List (Acceptance Errno)

/-- SOCK_STREAM and SOCK_DGRAM -/
inductive Prot where
  | Ptcp
  | Pudp
  deriving DecidableEq, Repr

inductive Stuck where
  | blocked
  | crashed
  deriving DecidableEq, Repr

section Calls

def readAgain : Errno → Bool
  | .EINTR => true
  | _ => false

/-- In UDP mode `Nwrite` waits when there are no buffers. -/
def writeAgain : Prot → Errno → Bool
  | _, .EINTR => true
  | .Pudp, .ENOBUFS => true
  | _, _ => false

structure Read where
  /-- `count - nleft`, or -1 -/
  result : ℤ
  /-- What has been put into the buffer. -/
  buf : List UInt8
  left : Reads
  deriving DecidableEq

/-- A count that is not positive reads nothing. -/
def Nread (count : ℤ) (reads : Reads) : Except Stuck Read :=
  let g := gather readAgain count.toNat reads
  match g.stop with
  | .blocked => throw .blocked
  | .refused _ => return ⟨-1, g.got, g.left⟩
  | _ => return ⟨g.got.length, g.got, g.left⟩

structure Write where
  /-- `count`, or -1 -/
  result : ℤ
  sent : List UInt8
  left : Writes
  deriving DecidableEq

def Nwrite (prot : Prot) (buf : List UInt8) (writes : Writes) : Except Stuck Write :=
  let o := emit (writeAgain prot) buf writes
  match o.stop with
  | .blocked => throw .blocked
  | .refused _ => return ⟨-1, o.sent, o.left⟩
  | _ => return ⟨buf.length, o.sent, o.left⟩

end Calls

section Words

def htonl (x : ℕ) : List UInt8 :=
  [UInt8.ofNat (x / 2 ^ 24), UInt8.ofNat (x / 2 ^ 16), UInt8.ofNat (x / 2 ^ 8), UInt8.ofNat x]

def ntohl : List UInt8 → ℕ
  | [b₀, b₁, b₂, b₃] => ((b₀.toNat * 256 + b₁.toNat) * 256 + b₂.toNat) * 256 + b₃.toNat
  | _ => 0

def toInt (x : ℕ) : ℤ := Int.bmod x (2 ^ 32)

/-- What is in a variable after a read that may have been short. -/
def overlay (got old : List UInt8) : List UInt8 := got ++ old.drop got.length

end Words

section Results

theorem bind_eq_ok {α β : Type} {x : Except Stuck α} {f : α → Except Stuck β} {b : β} :
    x >>= f = .ok b ↔ ∃ a, x = .ok a ∧ f a = .ok b := by
  cases x with
  | error e =>
    constructor
    · intro h
      cases h
    · rintro ⟨a, h, -⟩
      cases h
  | ok a =>
    constructor
    · intro h
      exact ⟨a, rfl, h⟩
    · rintro ⟨a', h, hb⟩
      cases h
      exact hb

variable {reads : Reads} {writes : Writes} {buf : List UInt8} {prot : Prot}

@[simp] theorem length_htonl (x : ℕ) : (htonl x).length = 4 := by simp [htonl]

theorem ntohl_htonl {x : ℕ} (hx : x < 2 ^ 32) : ntohl (htonl x) = x := by
  simp only [htonl, ntohl, UInt8.toNat_ofNat', Nat.reducePow] at hx ⊢
  omega

theorem toInt_of_lt {x : ℕ} (hx : x < 2 ^ 31) : toInt x = x := by
  have hmod : ((2 ^ 32 : ℕ) : ℤ) = 4294967296 := by norm_num
  apply Int.bmod_eq_of_le_mul_two
  · rw [hmod]
    omega
  · rw [hmod]
    omega

theorem overlay_of_length {got old : List UInt8} (h : old.length ≤ got.length) :
    overlay got old = got := by
  rw [overlay, List.drop_of_length_le h, List.append_nil]

/-- `Nread` returns a number between 0 and `count`, or -1, and keeps the order of what comes. -/
theorem Nread_spec {count : ℤ} {r : Read} (h : Nread count reads = .ok r) :
    r.buf ++ payload r.left = payload reads ∧ r.buf.length ≤ count.toNat ∧
      (r.result = -1 ∨ r.result = r.buf.length) := by
  have hpay := gather_payload readAgain count.toNat reads
  have hlen := length_gather_le readAgain count.toNat reads
  rw [Nread] at h
  split at h
  · cases h
  · obtain rfl := Except.ok.inj h
    exact ⟨hpay, hlen, Or.inl rfl⟩
  · obtain rfl := Except.ok.inj h
    exact ⟨hpay, hlen, Or.inr rfl⟩

theorem Nread_message (hsteady : Steady readAgain reads) {rest : List UInt8}
    (hpay : payload reads = buf ++ rest) :
    ∃ left, Nread buf.length reads = .ok ⟨buf.length, buf, left⟩ ∧ payload left = rest ∧
      Steady readAgain left := by
  obtain ⟨left, hleft, hpay', hsteady'⟩ := gather_append (n := buf.length) hsteady hpay rfl
  refine ⟨left, ?_, hpay', hsteady'⟩
  rw [Nread, Int.toNat_natCast, hleft]
  rfl

/-- `Nwrite` returns `count` only when all has gone out, and -1 when a part of it has. -/
theorem Nwrite_spec {w : Write} (h : Nwrite prot buf writes = .ok w) :
    (w.result = buf.length ∧ w.sent = buf) ∨ (w.result = -1 ∧ w.sent <+: buf) := by
  have hprefix := emit_prefix (writeAgain prot) buf writes
  rw [Nwrite] at h
  split at h
  · cases h
  · obtain rfl := Except.ok.inj h
    exact Or.inr ⟨rfl, hprefix⟩
  · rename_i hblocked hrefused
    obtain rfl := Except.ok.inj h
    refine Or.inl ⟨rfl, emit_full ?_⟩
    cases hstop : (emit (writeAgain prot) buf writes).stop with
    | full => rfl
    | closed => exact absurd hstop (emit_not_closed _ _ _)
    | refused e => exact absurd hstop (hrefused e)
    | blocked => exact absurd hstop hblocked

theorem Nwrite_message {n : ℕ} (h : Willing (writeAgain prot) (buf.length + n) writes) :
    ∃ left, Nwrite prot buf writes = .ok ⟨buf.length, buf, left⟩ ∧
      Willing (writeAgain prot) n left := by
  obtain ⟨left, hleft, hwilling⟩ := emit_spec h
  refine ⟨left, ?_, hwilling⟩
  rw [Nwrite, hleft]
  rfl

end Results

end Iperf
