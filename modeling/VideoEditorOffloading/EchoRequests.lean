import VideoEditorOffloading.CheckedArrays
import VideoEditorOffloading.OnesComplement

/-! # The packets of `start_ping`

`send_buf` holds an IP header of 20 bytes and an ICMP message behind it, on a little-endian machine.
The checksum of the header is taken over `ip_hl` bytes, but `ip_hl` counts words of 32 bits. The
address for `sendto`, the bytes of the replies and the texts for the log are left out. -/
namespace EchoRequests

open CheckedArrays OnesComplement

structure InAddr where
  b₀ : UInt8
  b₁ : UInt8
  b₂ : UInt8
  b₃ : UInt8
  deriving DecidableEq, Repr

def InAddr.bytes (a : InAddr) : List UInt8 := [a.b₀, a.b₁, a.b₂, a.b₃]

structure SendBuf where
  bytes : List UInt8
  size_eq : bytes.length = 400
  deriving DecidableEq

section Checksum

/-- `sum += x` for an `int` that is not negative. An overflow is undefined. -/
def addInt (sum x : ℕ) : Option ℕ := if sum + x < 2 ^ 31 then some (sum + x) else none

/-- The loop and the last byte. A byte behind the end of the array cannot be read. -/
def addUp : ℕ → List UInt8 → ℕ → Option ℕ
  | 0, _, sum => some sum
  | 1, b :: _, sum => addInt sum b.toNat
  | nleft + 2, b₀ :: b₁ :: w, sum => do addUp nleft w (← addInt sum (b₀.toNat + 256 * b₁.toNat))
  | _ + 1, _, _ => none

def cksum (addr : List UInt8) (len : ℕ) : Option UInt16 := do
  let sum ← addUp len addr 0
  let sum := sum / 65536 + sum % 65536
  let sum := sum + sum / 65536
  return ~~~ UInt16.ofNat sum

theorem addUp_spec {nleft sum : ℕ} {w : List UInt8} (hlen : nleft ≤ w.length)
    (hsum : sum + (words (w.take nleft)).sum < 2 ^ 31) :
    addUp nleft w sum = some (sum + (words (w.take nleft)).sum) := by
  induction nleft, w, sum using addUp.induct with
  | case1 w sum => rfl
  | case2 b w sum =>
    simp only [List.take_succ_cons, List.take_zero, words, List.sum_cons, List.sum_nil] at hsum ⊢
    exact if_pos hsum
  | case3 nleft b₀ b₁ w sum ih =>
    simp only [List.take_succ_cons, words, List.sum_cons, List.length_cons] at hsum hlen ⊢
    have hadd : addInt sum (b₀.toNat + 256 * b₁.toNat) =
        some (sum + (b₀.toNat + 256 * b₁.toNat)) := if_pos (by omega)
    rw [addUp, hadd, Option.bind_eq_bind, Option.bind_some, ih _ (by omega) (by omega)]
    rw [Nat.add_assoc]
  | case4 nleft w sum h₁ h₂ =>
    -- There is no byte left to read.
    exfalso
    cases w with
    | nil => exact absurd hlen (by simp)
    | cons b₀ w =>
      cases nleft with
      | zero => exact h₁ b₀ w rfl rfl
      | succ nleft =>
        cases w with
        | nil => exact absurd hlen (by simp)
        | cons b₁ w => exact h₂ nleft b₀ b₁ w rfl rfl

theorem cksum_spec {addr : List UInt8} {len : ℕ} (hlen : len ≤ addr.length)
    (hsum : (words (addr.take len)).sum < 2 ^ 31) :
    ∃ x, cksum addr len = some x ∧
      x.toNat = 65535 - reduce (words (addr.take len)).sum := by
  have hadd := addUp_spec hlen (by rwa [Nat.zero_add])
  rw [Nat.zero_add] at hadd
  generalize (words (addr.take len)).sum = total at hadd hsum ⊢
  refine ⟨~~~ UInt16.ofNat (total / 65536 + total % 65536 +
    (total / 65536 + total % 65536) / 65536), ?_, ?_⟩
  · rw [cksum, hadd]
    rfl
  · rw [UInt16.toNat_not, UInt16.toNat_ofNat', fold_twice (by omega)]
    rfl

end Checksum

section Buffer

def lowByte (x : UInt16) : UInt8 := x.toUInt8

def highByte (x : UInt16) : UInt8 := (x >>> 8).toUInt8

/-- A store of one byte, and of a 16-bit number with its low byte first. -/
def SendBuf.store8 (b : SendBuf) (p : ℕ) (x : UInt8) : SendBuf :=
  ⟨b.bytes.set p x, by rw [List.length_set, b.size_eq]⟩

def SendBuf.store16 (b : SendBuf) (p : ℕ) (x : UInt16) : SendBuf :=
  (b.store8 p (lowByte x)).store8 (p + 1) (highByte x)

def SendBuf.load16 (b : SendBuf) (p : ℕ) : UInt16 :=
  UInt16.ofNat ((b.bytes.getD p 0).toNat + 256 * (b.bytes.getD (p + 1) 0).toNat)

def SendBuf.storeAddr (b : SendBuf) (p : ℕ) (a : InAddr) : SendBuf :=
  (((b.store8 p a.b₀).store8 (p + 1) a.b₁).store8 (p + 2) a.b₂).store8 (p + 3) a.b₃

def htons (x : UInt16) : UInt16 := x <<< 8 ||| x >>> 8

def SendBuf.zero : SendBuf := ⟨List.replicate 400 0, List.length_replicate⟩

/-- The two fields in the first byte of a `struct ip`. -/
def SendBuf.set_ip_v (b : SendBuf) (x : UInt8) : SendBuf :=
  b.store8 0 ((b.bytes.getD 0 0 &&& (0x0f : UInt8)) ||| (x <<< 4))

def SendBuf.set_ip_hl (b : SendBuf) (x : UInt8) : SendBuf :=
  b.store8 0 ((b.bytes.getD 0 0 &&& (0xf0 : UInt8)) ||| (x &&& 0x0f))

def SendBuf.ip_hl (b : SendBuf) : ℕ := (b.bytes.getD 0 0).toNat % 16

def sizeof_ip : ℕ := 20
def sizeof_icmp : ℕ := 28

/-! Where the other fields of the `struct ip`, and those of the `struct icmp` behind it, are in
`send_buf`. -/

def ip_tos : ℕ := 1
def ip_len : ℕ := 2
def ip_id : ℕ := 4
def ip_off : ℕ := 6
def ip_ttl : ℕ := 8
def ip_p : ℕ := 9
def ip_sum : ℕ := 10
def ip_src : ℕ := 12
def ip_dst : ℕ := 16
def icmp_type : ℕ := sizeof_ip
def icmp_code : ℕ := sizeof_ip + 1
def icmp_cksum : ℕ := sizeof_ip + 2
def icmp_id : ℕ := sizeof_ip + 4
def icmp_seq : ℕ := sizeof_ip + 6

end Buffer

section Program

structure Timespec where
  tv_sec : ℤ
  tv_nsec : ℤ

/-- What becomes of one packet. With `received` come the clock before `sendto` and the clock after
`recvfrom`. -/
inductive Reply where
  | sendFailed
  | selectFailed
  | timeout
  | recvFailed
  | received (start stop : Timespec)

/-- What the calls of the system return. `replies` is by the number of the packet. -/
structure Host where
  gethostname : Bool
  src_hp : Option InAddr
  dst_hp : Option InAddr
  inet_addr : InAddr
  socket : Bool
  setsockopt : Bool
  replies : ℕ → Reply

/-- The local variables of `start_ping` that its loop changes, and the packets handed to `sendto`. -/
structure Ping where
  send_buf : SendBuf
  failed_count : ℕ
  rtt : ℤ
  sent : List SendBuf

/-- The addresses for the header, or `none` for `exit(EXIT_FAILURE)`. -/
def Host.addresses (host : Host) : Option (InAddr × InAddr) := do
  if ¬ host.gethostname then failure
  let src ← host.src_hp
  let dst ← match host.dst_hp with
    | none => if host.inet_addr = ⟨0xff, 0xff, 0xff, 0xff⟩ then none else some host.inet_addr
    | some dst => some dst
  if ¬ host.socket then failure
  if ¬ host.setsockopt then failure
  return (src, dst)

def prepare (src dst : InAddr) : SendBuf :=
  let send_buf := SendBuf.zero
  let send_buf := send_buf.storeAddr ip_src src
  let send_buf := send_buf.storeAddr ip_dst dst
  let send_buf := send_buf.set_ip_v 4
  let send_buf := send_buf.set_ip_hl 5
  let send_buf := send_buf.store8 ip_tos 0
  let send_buf := send_buf.store16 ip_len (htons 400)
  let send_buf := send_buf.store16 ip_id (htons 321)
  let send_buf := send_buf.store16 ip_off (htons 0)
  let send_buf := send_buf.store8 ip_ttl 255
  let send_buf := send_buf.store8 ip_p 1
  let send_buf := send_buf.store16 ip_sum 0
  let send_buf := send_buf.store8 icmp_type 8
  let send_buf := send_buf.store8 icmp_code 0
  let send_buf := send_buf.store16 icmp_id 123
  send_buf.store16 icmp_seq 0

def headerChecksums (send_buf : SendBuf) : Option SendBuf := do
  let send_buf := send_buf.store16 icmp_cksum 0
  let send_buf := send_buf.store16 ip_sum (← cksum send_buf.bytes send_buf.ip_hl)
  return send_buf.store16 icmp_cksum (← cksum (send_buf.bytes.drop sizeof_ip) (400 - sizeof_icmp))

def Ping.nextSeq (s : Ping) : Ping :=
  { s with send_buf := s.send_buf.store16 icmp_seq (s.send_buf.load16 icmp_seq + 1) }

def sendRound (s : Ping) (reply : Reply) : Option Ping := do
  let send_buf ← headerChecksums s.send_buf
  let s := { s with send_buf := send_buf, sent := s.sent ++ [send_buf] }
  match reply with
  | .sendFailed => return { s with failed_count := s.failed_count + 1 }
  | .selectFailed | .timeout | .recvFailed =>
    return { s with failed_count := s.failed_count + 1 }.nextSeq
  | .received start stop =>
    let local_rtt := (stop.tv_sec - start.tv_sec) * 1000 +
      (stop.tv_nsec - start.tv_nsec).tdiv 1000000
    return { s with rtt := s.rtt + local_rtt }.nextSeq

/-- The inner `some none` is the exit. The program returns the `rtt`. -/
def start_ping (host : Host) : Option (Option Ping) :=
  match host.addresses with
  | none => some none
  | some (src, dst) => do
    let s ← forUp 1 10 ⟨prepare src dst, 0, 0, []⟩ fun s i => sendRound s (host.replies i)
    return some s

end Program

section Packets

variable {src dst : InAddr}

/-- The bytes of `send_buf` with both checksums and the sequence number. -/
def packet (src dst : InAddr) (sum cksum seq : UInt16) : List UInt8 :=
  [0x45, 0, 0x01, 0x90, 0x01, 0x41, 0, 0, 0xff, 1, lowByte sum, highByte sum,
    src.b₀, src.b₁, src.b₂, src.b₃, dst.b₀, dst.b₁, dst.b₂, dst.b₃,
    8, 0, lowByte cksum, highByte cksum, 123, 0, lowByte seq, highByte seq] ++
    List.replicate 372 0

theorem prepare_bytes (src dst : InAddr) : (prepare src dst).bytes = packet src dst 0 0 0 := by
  have hzero : SendBuf.zero.bytes =
      [0, 0, 0, 0, 0, 0, 0, 0, 0, 0, 0, 0, 0, 0, 0, 0, 0, 0, 0, 0, 0, 0, 0, 0, 0, 0, 0, 0] ++
        List.replicate 372 0 := List.replicate_add 28 372 0
  simp only [prepare, SendBuf.set_ip_hl, SendBuf.set_ip_v, SendBuf.store16, SendBuf.storeAddr,
    SendBuf.store8, hzero, ip_src, ip_dst, ip_tos, ip_len, ip_id, ip_off, ip_ttl, ip_p, ip_sum,
    icmp_type, icmp_code, icmp_id, icmp_seq, sizeof_ip, Nat.reduceAdd, List.cons_append,
    List.nil_append, List.set_cons_succ, List.set_cons_zero, List.getD_cons_zero]
  rfl

variable {b : SendBuf} {sum ck seq : UInt16}

theorem store_ip_sum (hb : b.bytes = packet src dst sum ck seq) (x : UInt16) :
    (b.store16 ip_sum x).bytes = packet src dst x ck seq := by
  simp only [SendBuf.store16, SendBuf.store8, hb, packet, ip_sum, Nat.reduceAdd, List.cons_append,
    List.nil_append, List.set_cons_succ, List.set_cons_zero]

theorem store_icmp_cksum (hb : b.bytes = packet src dst sum ck seq) (x : UInt16) :
    (b.store16 icmp_cksum x).bytes = packet src dst sum x seq := by
  simp only [SendBuf.store16, SendBuf.store8, hb, packet, icmp_cksum, sizeof_ip, Nat.reduceAdd,
    List.cons_append, List.nil_append, List.set_cons_succ, List.set_cons_zero]

theorem store_icmp_seq (hb : b.bytes = packet src dst sum ck seq) (x : UInt16) :
    (b.store16 icmp_seq x).bytes = packet src dst sum ck x := by
  simp only [SendBuf.store16, SendBuf.store8, hb, packet, icmp_seq, sizeof_ip, Nat.reduceAdd,
    List.cons_append, List.nil_append, List.set_cons_succ, List.set_cons_zero]

theorem toNat_bytes (x : UInt16) : (lowByte x).toNat + 256 * (highByte x).toNat = x.toNat := by
  have hx := x.toNat_lt
  have hhigh : x.toNat >>> (UInt16.toNat 8 % 16) = x.toNat / 256 := Nat.shiftRight_eq_div_pow _ 8
  simp only [lowByte, highByte, UInt16.toNat_toUInt8, UInt16.toNat_shiftRight, hhigh]
  omega

theorem load_icmp_seq (hb : b.bytes = packet src dst sum ck seq) : b.load16 icmp_seq = seq := by
  have hseq : b.load16 icmp_seq =
      UInt16.ofNat ((lowByte seq).toNat + 256 * (highByte seq).toNat) := by
    rw [SendBuf.load16, hb]
    rfl
  rw [hseq, toNat_bytes, UInt16.ofNat_toNat]

theorem words_header (src dst : InAddr) (sum ck seq : UInt16) :
    words ((packet src dst sum ck seq).take sizeof_ip) =
      [0x0045, 0x9001, 0x4101, 0, 0x01ff, sum.toNat] ++ words (src.bytes ++ dst.bytes) := by
  rw [← toNat_bytes sum]
  rfl

def message (ck seq : UInt16) (zeros : ℕ) : List UInt8 :=
  [8, 0, lowByte ck, highByte ck, 123, 0, lowByte seq, highByte seq] ++ List.replicate zeros 0

theorem sum_words_message (ck seq : UInt16) (zeros : ℕ) :
    (words (message ck seq zeros)).sum = 131 + ck.toNat + seq.toNat := by
  have hwords : words (message ck seq zeros) =
      [8, (lowByte ck).toNat + 256 * (highByte ck).toNat, 123,
        (lowByte seq).toNat + 256 * (highByte seq).toNat] ++ words (List.replicate zeros 0) := rfl
  rw [hwords, toNat_bytes, toNat_bytes, List.sum_append, sum_words_zeros]
  simp only [List.sum_cons, List.sum_nil]
  omega

theorem length_message (ck seq : UInt16) (zeros : ℕ) :
    (message ck seq zeros).length = zeros + 8 := by
  simp only [message, List.cons_append, List.nil_append, List.length_cons, List.length_replicate]

theorem drop_header (src dst : InAddr) (sum ck seq : UInt16) :
    (packet src dst sum ck seq).drop sizeof_ip = message ck seq 372 := rfl

theorem cksum_header (src dst : InAddr) (sum ck seq : UInt16) :
    cksum (packet src dst sum ck seq) 5 = some 0x6fb8 := rfl

theorem cksum_message (seq : UInt16) :
    ∃ ck, cksum (message 0 seq 372) (400 - sizeof_icmp) = some ck ∧
      (131 + ck.toNat + seq.toNat) % 65535 = 0 := by
  have htake : (message 0 seq 372).take (400 - sizeof_icmp) = message 0 seq 364 := by
    have hlen : 400 - sizeof_icmp =
        [8, 0, lowByte 0, highByte 0, 123, 0, lowByte seq, highByte seq].length + 364 := rfl
    rw [hlen, message, List.take_length_add_append, List.take_replicate]
    rfl
  have hseq := seq.toNat_lt
  have htotal : (words ((message 0 seq 372).take (400 - sizeof_icmp))).sum = 131 + seq.toNat := by
    rw [htake, sum_words_message]
    rfl
  obtain ⟨ck, hck, hvalue⟩ := @cksum_spec (message 0 seq 372) (400 - sizeof_icmp)
    (by rw [length_message]; decide) (by rw [htotal]; omega)
  refine ⟨ck, hck, ?_⟩
  rw [htotal] at hvalue
  have hzero := reduce_complement (131 + seq.toNat)
  rw [← hvalue, reduce_eq_max_iff] at hzero
  rw [Nat.add_right_comm]
  exact hzero.2

theorem headerChecksums_spec (hb : b.bytes = packet src dst sum ck seq) :
    ∃ b' ck', headerChecksums b = some b' ∧ b'.bytes = packet src dst 0x6fb8 ck' seq ∧
      (131 + ck'.toNat + seq.toNat) % 65535 = 0 := by
  obtain ⟨ck', hck, hzero⟩ := cksum_message seq
  have hcleared := store_icmp_cksum hb 0
  have hsigned := store_ip_sum hcleared 0x6fb8
  have hlen : (b.store16 icmp_cksum 0).ip_hl = 5 := by
    rw [SendBuf.ip_hl, hcleared, packet, List.cons_append, List.getD_cons_zero]
    rfl
  refine ⟨_, ck', ?_, store_icmp_cksum hsigned ck', hzero⟩
  simp only [headerChecksums, hlen, hcleared, cksum_header, hsigned, drop_header, hck,
    Option.bind_eq_bind, Option.bind_some]
  rfl

end Packets

section Runs

variable {src dst : InAddr}

def Signed (src dst : InAddr) (b : SendBuf) : Prop :=
  ∃ ck seq : UInt16, b.bytes = packet src dst 0x6fb8 ck seq ∧
    (131 + ck.toNat + seq.toNat) % 65535 = 0

def Prepared (src dst : InAddr) (s : Ping) : Prop :=
  ∃ sum ck seq, s.send_buf.bytes = packet src dst sum ck seq

theorem Prepared.nextSeq {s : Ping} (h : Prepared src dst s) : Prepared src dst s.nextSeq := by
  obtain ⟨sum, ck, seq, hb⟩ := h
  refine ⟨sum, ck, seq + 1, ?_⟩
  rw [Ping.nextSeq, load_icmp_seq hb]
  exact store_icmp_seq hb (seq + 1)

theorem sendRound_spec {s : Ping} (h : Prepared src dst s) (reply : Reply) :
    ∃ s' p, sendRound s reply = some s' ∧ s'.sent = s.sent ++ [p] ∧ Signed src dst p ∧
      Prepared src dst s' := by
  obtain ⟨sum, ck, seq, hb⟩ := h
  obtain ⟨p, ck', hp, hbytes, hzero⟩ := headerChecksums_spec hb
  have hafter : ∀ failed rtt, Prepared src dst ⟨p, failed, rtt, s.sent ++ [p]⟩ :=
    fun _ _ => ⟨_, _, _, hbytes⟩
  have hsigned : Signed src dst p := ⟨ck', seq, hbytes, hzero⟩
  simp only [sendRound, hp, Option.bind_eq_bind, Option.bind_some]
  cases reply with
  | sendFailed => exact ⟨_, p, rfl, rfl, hsigned, hafter _ _⟩
  | selectFailed => exact ⟨_, p, rfl, rfl, hsigned, (hafter _ _).nextSeq⟩
  | timeout => exact ⟨_, p, rfl, rfl, hsigned, (hafter _ _).nextSeq⟩
  | recvFailed => exact ⟨_, p, rfl, rfl, hsigned, (hafter _ _).nextSeq⟩
  | received start stop => exact ⟨_, p, rfl, rfl, hsigned, (hafter _ _).nextSeq⟩

theorem start_ping_spec {host : Host} (haddr : host.addresses = some (src, dst)) :
    ∃ s, start_ping host = some (some s) ∧ s.sent.length = 10 ∧
      ∀ p ∈ s.sent, Signed src dst p := by
  have hstart : Prepared src dst ⟨prepare src dst, 0, 0, []⟩ ∧
      ([] : List SendBuf).length + 1 = 1 ∧ ∀ p ∈ ([] : List SendBuf), Signed src dst p :=
    ⟨⟨0, 0, 0, prepare_bytes src dst⟩, rfl, fun p hp => absurd hp List.not_mem_nil⟩
  have hstep : ∀ i s, 1 ≤ i → i < 1 + 10 →
      (Prepared src dst s ∧ s.sent.length + 1 = i ∧ ∀ p ∈ s.sent, Signed src dst p) →
      ∃ s', sendRound s (host.replies i) = some s' ∧
        Prepared src dst s' ∧ s'.sent.length + 1 = i + 1 ∧ ∀ p ∈ s'.sent, Signed src dst p := by
    rintro i s - - ⟨hprepared, hlength, hsent⟩
    obtain ⟨s', p, hs', happend, hsigned, hnext⟩ := sendRound_spec hprepared (host.replies i)
    refine ⟨s', hs', hnext, ?_, ?_⟩
    · rw [happend, List.length_append, List.length_singleton, hlength]
    · rw [happend, List.forall_mem_append, List.forall_mem_singleton]
      exact ⟨hsent, hsigned⟩
  obtain ⟨s, hs, -, hlength, hsent⟩ := forUp_spec
    (fun i s => Prepared src dst s ∧ s.sent.length + 1 = i ∧ ∀ p ∈ s.sent, Signed src dst p) 10
    hstart hstep
  refine ⟨s, ?_, by omega, hsent⟩
  rw [start_ping, haddr]
  exact Option.bind_eq_some_iff.mpr ⟨s, hs, rfl⟩

end Runs

section Results

def headerSum (p : SendBuf) : ℕ := sum (words (p.bytes.take sizeof_ip))

def messageSum (p : SendBuf) : ℕ := sum (words (p.bytes.drop sizeof_ip))

theorem Signed.messageSum {src dst : InAddr} {p : SendBuf} (h : Signed src dst p) :
    messageSum p = 0xffff := by
  obtain ⟨ck, seq, hp, hzero⟩ := h
  rw [EchoRequests.messageSum, sum_eq_max_iff (words_lt _), hp, drop_header, sum_words_message]
  exact ⟨by omega, hzero⟩

theorem Signed.headerSum_iff {src dst : InAddr} {p : SendBuf} (h : Signed src dst p) :
    headerSum p = 0xffff ↔ sum (words (src.bytes ++ dst.bytes)) = 0xbd00 := by
  obtain ⟨ck, seq, hp, -⟩ := h
  have hconstant : ([0x0045, 0x9001, 0x4101, 0, 0x01ff, (0x6fb8 : UInt16).toNat] : List ℕ).sum =
      0x142fe := rfl
  rw [headerSum, sum_eq_max_iff (words_lt _), hp, words_header, List.sum_append, hconstant,
    sum_eq_reduce (words_lt _)]
  have hlt := reduce_lt (words (src.bytes ++ dst.bytes)).sum
  have hmod := reduce_mod (words (src.bytes ++ dst.bytes)).sum
  omega

/-- Exactly when the packets of a run are well formed: the ICMP part always is, and the header is
for addresses whose halves have one certain sum. -/
theorem echo_requests_well_formed_iff (host : Host) (src dst : InAddr)
    (haddr : host.addresses = some (src, dst)) :
    ∃ s, start_ping host = some (some s) ∧ s.sent.length = 10 ∧
      ∀ p ∈ s.sent, messageSum p = 0xffff ∧
        (headerSum p = 0xffff ∧ messageSum p = 0xffff ↔
          sum (words (src.bytes ++ dst.bytes)) = 0xbd00) := by
  obtain ⟨s, hs, hlength, hsent⟩ := start_ping_spec haddr
  refine ⟨s, hs, hlength, ?_⟩
  intro p hp
  have hmessage := (hsent p hp).messageSum
  refine ⟨hmessage, ?_⟩
  rw [and_iff_left hmessage]
  exact (hsent p hp).headerSum_iff

def silentHost (src dst : InAddr) : Host where
  gethostname := true
  src_hp := some src
  dst_hp := some dst
  inet_addr := dst
  socket := true
  setsockopt := true
  replies := fun _ => .timeout

theorem silent_requests_well_formed_iff :
    ∃ s, start_ping (silentHost ⟨192, 168, 1, 2⟩ ⟨10, 0, 53, 18⟩) = some (some s) ∧
      s.sent.length = 10 ∧ ∀ p ∈ s.sent, messageSum p = 0xffff ∧
        (headerSum p = 0xffff ∧ messageSum p = 0xffff ↔
          sum (words ([192, 168, 1, 2] ++ [10, 0, 53, 18])) = 0xbd00) :=
  echo_requests_well_formed_iff (silentHost ⟨192, 168, 1, 2⟩ ⟨10, 0, 53, 18⟩) ⟨192, 168, 1, 2⟩
    ⟨10, 0, 53, 18⟩ rfl

example : sum (words ([192, 168, 1, 2] ++ [10, 0, 53, 18])) = 0xbd00 := by decide

/-- From 10.0.0.1 to 10.0.0.2 no header is right. -/
theorem header_checksum_wrong :
    ∃ s, start_ping (silentHost ⟨10, 0, 0, 1⟩ ⟨10, 0, 0, 2⟩) = some (some s) ∧
      s.sent.length = 10 ∧ ∀ p ∈ s.sent, headerSum p ≠ 0xffff := by
  obtain ⟨s, hs, hlength, hsent⟩ := @start_ping_spec ⟨10, 0, 0, 1⟩ ⟨10, 0, 0, 2⟩
    (silentHost ⟨10, 0, 0, 1⟩ ⟨10, 0, 0, 2⟩) rfl
  refine ⟨s, hs, hlength, ?_⟩
  intro p hp
  rw [Ne, (hsent p hp).headerSum_iff]
  decide

end Results

section Verification

variable {buffer : List UInt8}

def storeWord (buffer : List UInt8) (p : ℕ) (x : UInt16) : List UInt8 :=
  (buffer.set p (lowByte x)).set (p + 1) (highByte x)

theorem store16_bytes (b : SendBuf) (p : ℕ) (x : UInt16) :
    (b.store16 p x).bytes = storeWord b.bytes p x := rfl

theorem length_storeWord (buffer : List UInt8) (p : ℕ) (x : UInt16) :
    (storeWord buffer p x).length = buffer.length := by
  rw [storeWord, List.length_set, List.length_set]

theorem sum_words_storeWord {p : ℕ} (heven : p % 2 = 0) (hlow : buffer[p]? = some 0)
    (hhigh : buffer[p + 1]? = some 0) (x : UInt16) :
    (words (storeWord buffer p x)).sum = (words buffer).sum + x.toNat := by
  obtain ⟨n, rfl⟩ := Nat.dvd_of_mod_eq_zero heven
  rw [storeWord, sum_words_set hlow hhigh, toNat_bytes]

theorem cksum_all (hsum : (words buffer).sum < 2 ^ 31) :
    ∃ x, cksum buffer buffer.length = some x ∧ x.toNat = 65535 - reduce (words buffer).sum := by
  have htake : buffer.take buffer.length = buffer := List.take_length
  obtain ⟨x, hx, hvalue⟩ := @cksum_spec buffer buffer.length le_rfl (by rwa [htake])
  rw [htake] at hvalue
  exact ⟨x, hx, hvalue⟩

/-- Any buffer with its checksum in it has the checksum 0. Both calls return, so the sum of neither
leaves the range of `int`. -/
theorem signed_buffer_verifies (buffer : List UInt8) (p : ℕ) (heven : p % 2 = 0)
    (hlow : buffer[p]? = some 0) (hhigh : buffer[p + 1]? = some 0)
    (hsum : (words buffer).sum ≤ 2 ^ 31 - 1 - 65535) :
    ∃ x, cksum buffer buffer.length = some x ∧
      cksum (storeWord buffer p x) buffer.length = some 0 := by
  obtain ⟨x, hx, hvalue⟩ := @cksum_all buffer (by omega)
  refine ⟨x, hx, ?_⟩
  have htotal := sum_words_storeWord heven hlow hhigh x
  have hlt := x.toNat_lt
  obtain ⟨y, hy, hzero⟩ := @cksum_all (storeWord buffer p x) (by omega)
  rw [length_storeWord] at hy
  rw [htotal, hvalue, reduce_complement] at hzero
  have hy₀ : y = 0 := UInt16.toNat_inj.mp hzero
  rw [hy, hy₀]

/-- An odd length, and words whose sum is a zero already. -/
theorem odd_buffer_verifies :
    ∃ x, cksum [0xfe, 0xff, 0, 0, 1] 5 = some x ∧
      cksum (storeWord [0xfe, 0xff, 0, 0, 1] 2 x) 5 = some 0 :=
  signed_buffer_verifies [0xfe, 0xff, 0, 0, 1] 2 rfl rfl rfl (by decide)

end Verification

end EchoRequests
