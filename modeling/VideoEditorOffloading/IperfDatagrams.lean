import VideoEditorOffloading.IperfTest

/-! # Datagrams and their losses

A datagram starts with the time at which it was sent and its number. The receiver counts a gap as
lost when a number is too high, and a datagram as out of order when its number is too low. -/
namespace Iperf

open SegmentedStreams

section Sending

/-- The microseconds between two datagrams. Division by 0 and a failed `assert` end the process. -/
def sendDelay (settings : Settings) : Except Stuck ℕ :=
  let dtargus := settings.blksize * 1000000 * 8 / settings.rate.toNat
  if settings.rate = 0 ∨ dtargus = 0 then throw .crashed else return dtargus

/-- Three words, each written as one of 64 bits whose upper half is 0. -/
def header (before : Timeval) (packet_count : ℤ) : List UInt8 :=
  htonl (before.tv_sec % 2 ^ 32).toNat ++ htonl (before.tv_usec % 2 ^ 32).toNat ++
    htonl (packet_count % 2 ^ 32).toNat ++ [0, 0, 0, 0]

/-- The header must not go beyond the buffer. -/
def Stream.stamp (before : Timeval) (sp : Stream) : Except Stuck Stream :=
  if sp.buffer.length < 16 then throw .crashed
  else return { sp with buffer := header before sp.packet_count ++ sp.buffer.drop 16 }

/-- `expired` is what the timer says, if there is one. A new time for the timer is not kept. -/
def iperf_udp_send (settings : Settings) (sp : Stream) (expired : Bool) (before : Timeval)
    (writes : Writes) : Except Stuck (Stream × ℤ) := do
  if sp.send_timer && expired then
    let _ ← sendDelay settings
    let sp ← { sp with packet_count := sp.packet_count + 1 }.stamp before
    let w ← Nwrite .Pudp sp.buffer writes
    if w.result < 0 then return (sp, -1)
    return (sp.addSent w.result, w.result)
  else return (sp, 0)

end Sending

section Receiving

def word (offset : ℕ) (buffer : List UInt8) : ℤ := toInt (ntohl ((buffer.drop offset).take 4))

def Stream.countPacket (pcount : ℤ) (sp : Stream) : Stream :=
  if pcount ≥ sp.packet_count + 1 then
    { sp with
      cnt_error :=
        if pcount > sp.packet_count + 1 then sp.cnt_error + ((pcount - 1) - sp.packet_count)
        else sp.cnt_error
      packet_count := pcount }
  else { sp with outoforder_packets := sp.outoforder_packets + 1 }

def Stream.measure (sent_time arrival_time : Timeval) (sp : Stream) : Stream :=
  let transit := timeval_diff sent_time arrival_time
  let d := transit - sp.prev_transit
  let d := if d < 0 then -d else d
  { sp with
    prev_transit := transit
    jitter := sp.jitter + (d - sp.jitter) / 16 }

def Stream.receive (result : ℤ) (arrival_time : Timeval) (sp : Stream) : Stream :=
  ((sp.addReceived result).countPacket (word 8 sp.buffer)).measure
    ⟨word 0 sp.buffer, word 4 sp.buffer⟩ arrival_time

def iperf_udp_recv (sp : Stream) (reads : Reads) (arrival_time : Timeval) :
    Except Stuck (Stream × ℤ) := do
  let r ← Nread sp.buffer.length reads
  let sp := { sp with buffer := overlay r.buf sp.buffer }
  if r.result < 0 then return (sp, -1)
  if sp.buffer.length < 12 then throw .crashed
  return (sp.receive r.result arrival_time, r.result)

end Receiving

section Runs

/-- One call after the other; the datagrams are what the buffer holds. -/
def sendDatagrams (settings : Settings) :
    List (Timeval × Writes) → Stream → Except Stuck (Stream × List (List UInt8))
  | [], sp => return (sp, [])
  | (before, writes) :: calls, sp => do
    let (sp, _) ← iperf_udp_send settings sp true before writes
    let (sp', datagrams) ← sendDatagrams settings calls sp
    return (sp', sp.buffer :: datagrams)

def receiveDatagrams : List (Reads × Timeval) → Stream → Except Stuck Stream
  | [], sp => return sp
  | (reads, arrival_time) :: calls, sp => do
    let (sp, _) ← iperf_udp_recv sp reads arrival_time
    receiveDatagrams calls sp

def number (datagram : List UInt8) : ℤ := word 8 datagram

end Runs

section Numbers

variable {settings : Settings} {sp sp' : Stream} {r : ℤ} {before : Timeval} {writes : Writes}

theorem number_header (before : Timeval) {k : ℤ} (h₀ : 0 ≤ k) (hk : k < 2 ^ 31) (rest : List UInt8) :
    number (header before k ++ rest) = k := by
  have hword : ((header before k ++ rest).drop 8).take 4 = htonl (k % 2 ^ 32).toNat := by
    rfl
  have hmod : k % 2 ^ 32 = k := Int.emod_eq_of_lt h₀ (by omega)
  rw [number, word, hword, hmod, ntohl_htonl (by omega), toInt_of_lt (by omega)]
  omega

theorem iperf_udp_send_spec (htimer : sp.send_timer = true) (h₀ : 0 ≤ sp.packet_count)
    (hmax : sp.packet_count + 1 < 2 ^ 31)
    (h : iperf_udp_send settings sp true before writes = .ok (sp', r)) :
    sp'.packet_count = sp.packet_count + 1 ∧ number sp'.buffer = sp.packet_count + 1 ∧
      sp'.buffer.length = sp.buffer.length ∧ sp'.send_timer = true := by
  have hexpired : (sp.send_timer && true) = true := by
    rw [htimer]
    rfl
  rw [iperf_udp_send, if_pos hexpired] at h
  obtain ⟨dtargus, -, h⟩ := bind_eq_ok.mp h
  obtain ⟨stamped, hstamp, h⟩ := bind_eq_ok.mp h
  obtain ⟨w, -, h⟩ := bind_eq_ok.mp h
  rw [Stream.stamp] at hstamp
  split at hstamp
  · cases hstamp
  rename_i hlen
  obtain rfl := Except.ok.inj hstamp
  have hnumber := number_header before (k := sp.packet_count + 1) (by omega) hmax
    (sp.buffer.drop 16)
  have hlength : (header before (sp.packet_count + 1) ++ sp.buffer.drop 16).length =
      sp.buffer.length := by
    simp only [header, List.length_append, length_htonl, List.length_drop, List.length_cons,
      List.length_nil]
    have hlen : ¬ sp.buffer.length < 16 := hlen
    omega
  split at h
  · cases h
    exact ⟨rfl, hnumber, hlength, htimer⟩
  · cases h
    exact ⟨rfl, hnumber, hlength, htimer⟩

theorem sendDatagrams_numbers {calls : List (Timeval × Writes)} {datagrams : List (List UInt8)} :
    ∀ {sp : Stream}, sp.send_timer = true → 0 ≤ sp.packet_count →
    sp.packet_count + calls.length < 2 ^ 31 →
    sendDatagrams settings calls sp = .ok (sp', datagrams) →
    datagrams.map number = (List.range calls.length).map (fun i : ℕ => sp.packet_count + 1 + i) ∧
      ∀ d ∈ datagrams, d.length = sp.buffer.length := by
  induction calls generalizing datagrams with
  | nil =>
    intro sp _ _ _ h
    cases h
    exact ⟨rfl, fun d hd => by cases hd⟩
  | cons call calls ih =>
    intro sp htimer h₀ hmax h
    rw [List.length_cons] at hmax
    obtain ⟨⟨sp₁, r⟩, hsend, h⟩ := bind_eq_ok.mp h
    obtain ⟨⟨sp₂, rest⟩, hrest, h⟩ := bind_eq_ok.mp h
    cases h
    obtain ⟨hcount, hnumber, hlength, htimer₁⟩ :=
      iperf_udp_send_spec htimer h₀ (by omega) hsend
    obtain ⟨hnumbers, hlengths⟩ := ih htimer₁ (by omega) (by rw [hcount]; push_cast at hmax; omega)
      hrest
    constructor
    · rw [List.map_cons, hnumber, hnumbers, List.length_cons, List.range_succ_eq_map, List.map_cons,
        List.map_map, hcount]
      refine List.cons_eq_cons.mpr ⟨?_, ?_⟩
      · rw [Nat.cast_zero, add_zero]
      · apply List.map_congr_left
        intro i _
        simp only [Function.comp_apply, Nat.succ_eq_add_one]
        push_cast
        ring
    · intro d hd
      rcases List.mem_cons.mp hd with rfl | hd
      · exact hlength
      · rw [hlengths d hd, hlength]

end Numbers

section Losses

variable {sp sp' : Stream} {numbers : List ℤ} {k : ℤ}

/-- What a receiver that starts with 0 has counted when these numbers have come, in this order. -/
structure Counted (numbers : List ℤ) (sp : Stream) : Prop where
  highest : ∀ k ∈ numbers, k ≤ sp.packet_count
  seen : sp.packet_count = 0 ∨ sp.packet_count ∈ numbers
  nonneg : 0 ≤ sp.packet_count
  balance : sp.cnt_error - sp.outoforder_packets = sp.packet_count - numbers.length
  late : 0 ≤ sp.outoforder_packets

theorem countPacket_counted (h : Counted numbers sp) :
    Counted (numbers ++ [k]) (sp.countPacket k) := by
  have hbalance := h.balance
  have hnonneg := h.nonneg
  rw [Stream.countPacket]
  split
  case isTrue hk =>
    constructor
    · intro k' hk'
      rcases List.mem_append.mp hk' with hk' | hk'
      · have hle := h.highest k' hk'
        show k' ≤ k
        omega
      · exact (List.mem_singleton.mp hk').le
    · exact Or.inr (List.mem_append_right numbers List.mem_cons_self)
    · show 0 ≤ k
      omega
    · rw [List.length_append, List.length_singleton]
      push_cast
      split <;> omega
    · exact h.late
  case isFalse hk =>
    constructor
    · intro k' hk'
      rcases List.mem_append.mp hk' with hk' | hk'
      · exact h.highest k' hk'
      · obtain rfl := List.mem_singleton.mp hk'
        show k' ≤ sp.packet_count
        omega
    · exact h.seen.imp_right fun hmem => List.mem_append_left [k] hmem
    · exact h.nonneg
    · rw [List.length_append, List.length_singleton]
      push_cast
      omega
    · have hlate := h.late
      simp only
      omega

@[simp] theorem countPacket_buffer : (sp.countPacket k).buffer = sp.buffer := by
  rw [Stream.countPacket]
  split <;> rfl

@[simp] theorem addReceived_buffer (result : ℤ) : (sp.addReceived result).buffer = sp.buffer := rfl

@[simp] theorem measure_buffer (sent_time arrival_time : Timeval) :
    (sp.measure sent_time arrival_time).buffer = sp.buffer := rfl

theorem Counted.congr (h : Counted numbers sp) (hcount : sp'.packet_count = sp.packet_count)
    (herror : sp'.cnt_error = sp.cnt_error)
    (hlate : sp'.outoforder_packets = sp.outoforder_packets) : Counted numbers sp' := by
  constructor
  · rw [hcount]
    exact h.highest
  · rw [hcount]
    exact h.seen
  · rw [hcount]
    exact h.nonneg
  · rw [hcount, herror, hlate]
    exact h.balance
  · rw [hlate]
    exact h.late

theorem addReceived_counted (h : Counted numbers sp) (result : ℤ) :
    Counted numbers (sp.addReceived result) := h.congr rfl rfl rfl

theorem measure_counted (h : Counted numbers sp) (sent_time arrival_time : Timeval) :
    Counted numbers (sp.measure sent_time arrival_time) := h.congr rfl rfl rfl

theorem receive_counted (h : Counted numbers sp) (result : ℤ) (arrival_time : Timeval) :
    Counted (numbers ++ [number sp.buffer]) (sp.receive result arrival_time) :=
  measure_counted (countPacket_counted (addReceived_counted h result)) _ _

@[simp] theorem receive_buffer (result : ℤ) (arrival_time : Timeval) :
    (sp.receive result arrival_time).buffer = sp.buffer := by
  rw [Stream.receive, measure_buffer, countPacket_buffer, addReceived_buffer]

theorem iperf_udp_recv_spec {reads : Reads} {arrival_time : Timeval} {datagram : List UInt8}
    (hsteady : Steady readAgain reads) (hpay : payload reads = datagram)
    (hlen : datagram.length = sp.buffer.length) {r : ℤ}
    (h : iperf_udp_recv sp reads arrival_time = .ok (sp', r)) (hcounted : Counted numbers sp) :
    Counted (numbers ++ [number datagram]) sp' ∧ sp'.buffer.length = sp.buffer.length := by
  obtain ⟨left, hread, -, -⟩ :=
    Nread_message hsteady (hpay.trans (List.append_nil datagram).symm)
  have hpos : ¬ (datagram.length : ℤ) < 0 := by omega
  rw [iperf_udp_recv, ← hlen, hread] at h
  obtain ⟨got, hgot, h⟩ := bind_eq_ok.mp h
  cases hgot
  rw [overlay_of_length hlen.ge] at h
  have hcounted' : Counted numbers { sp with buffer := datagram } := hcounted.congr rfl rfl rfl
  rw [if_neg hpos] at h
  split at h
  · cases h
  simp only [pure, Except.pure, Except.ok.injEq, Prod.mk.injEq] at h
  obtain ⟨h, -⟩ := h
  subst h
  rw [receive_buffer]
  exact ⟨receive_counted hcounted' _ _, hlen⟩

theorem receiveDatagrams_counted {calls : List (Reads × Timeval)} :
    ∀ {datagrams : List (List UInt8)} {numbers : List ℤ} {sp : Stream},
    List.Forall₂ (fun (call : Reads × Timeval) datagram => Steady readAgain call.1 ∧
      payload call.1 = datagram) calls datagrams →
    (∀ d ∈ datagrams, d.length = sp.buffer.length) → Counted numbers sp →
    receiveDatagrams calls sp = .ok sp' → Counted (numbers ++ datagrams.map number) sp' := by
  induction calls with
  | nil =>
    intro datagrams numbers sp hcalls _ hcounted h
    cases hcalls
    cases h
    rwa [List.map_nil, List.append_nil]
  | cons call calls ih =>
    intro datagrams numbers sp hcalls hlen hcounted h
    cases hcalls with
    | cons hcall hcalls =>
      rename_i datagram datagrams
      obtain ⟨⟨sp₁, r⟩, hrecv, h⟩ := bind_eq_ok.mp h
      obtain ⟨hcounted₁, hlen₁⟩ := iperf_udp_recv_spec hcall.1 hcall.2
        (hlen datagram List.mem_cons_self) hrecv hcounted
      have hrest := ih hcalls (fun d hd => by
        rw [hlen₁]
        exact hlen d (List.mem_cons_of_mem datagram hd)) hcounted₁ h
      rw [List.map_cons]
      rwa [List.append_assoc] at hrest

/-- The numbers up to the highest one that never came. -/
noncomputable def missing (top : ℤ) (numbers : List ℤ) : Finset ℤ := Finset.Icc 1 top \ numbers.toFinset

theorem card_missing (hcounted : Counted numbers sp) (hnodup : numbers.Nodup)
    (hpos : ∀ k ∈ numbers, 1 ≤ k) :
    (missing sp.packet_count numbers).card = sp.cnt_error - sp.outoforder_packets := by
  have hsub : numbers.toFinset ⊆ Finset.Icc 1 sp.packet_count := by
    intro k hk
    rw [List.mem_toFinset] at hk
    exact Finset.mem_Icc.mpr ⟨hpos k hk, hcounted.highest k hk⟩
  have hcard := Finset.card_sdiff_of_subset hsub
  have hcardle := Finset.card_le_card hsub
  rw [Int.card_Icc, List.toFinset_card_of_nodup hnodup] at hcard hcardle
  rw [missing, hcard, hcounted.balance]
  have htop := hcounted.nonneg
  omega

theorem counted_nil (hcount : sp.packet_count = 0) (herror : sp.cnt_error = 0)
    (hlate : sp.outoforder_packets = 0) : Counted [] sp := by
  constructor
  · intro k hk
    cases hk
  · exact Or.inl hcount
  · exact hcount.ge
  · rw [hcount, herror, hlate]
    rfl
  · exact hlate.ge

/-- Of the datagrams of a run some come, in any order and each at most once. The difference of the
two counters is the number of those that are missing below the highest one that came. A write that
fails has used up a number. -/
theorem datagrams_lost {settings : Settings} {sender sender' receiver receiver' : Stream}
    {sends : List (Timeval × Writes)} {receives : List (Reads × Timeval)}
    {datagrams got : List (List UInt8)} (htimer : sender.send_timer = true)
    (hfirst : sender.packet_count = 0) (hmax : sends.length < 2 ^ 31)
    (hsends : sendDatagrams settings sends sender = .ok (sender', datagrams))
    (hgot : List.Subperm got datagrams)
    (hcalls : List.Forall₂ (fun (call : Reads × Timeval) datagram =>
      Steady readAgain call.1 ∧ payload call.1 = datagram) receives got)
    (hbuffer : receiver.buffer.length = sender.buffer.length) (hcount : receiver.packet_count = 0)
    (herror : receiver.cnt_error = 0) (hlate : receiver.outoforder_packets = 0)
    (hreceives : receiveDatagrams receives receiver = .ok receiver') :
    receiver'.packet_count ≤ sends.length ∧
      (receiver'.packet_count = 0 ∨ ∃ d ∈ got, number d = receiver'.packet_count) ∧
      (∀ d ∈ got, number d ≤ receiver'.packet_count) ∧
      receiver'.cnt_error - receiver'.outoforder_packets =
        (missing receiver'.packet_count (got.map number)).card := by
  obtain ⟨hnumbers, hlengths⟩ := sendDatagrams_numbers htimer hfirst.ge (by omega) hsends
  rw [hfirst] at hnumbers
  have hcounted := receiveDatagrams_counted hcalls
    (fun d hd => (hlengths d (hgot.subset hd)).trans hbuffer.symm)
    (counted_nil hcount herror hlate) hreceives
  rw [List.nil_append] at hcounted
  obtain ⟨came, hperm, hsub⟩ := hgot
  have hsub : (came.map number).Sublist ((List.range sends.length).map fun i : ℕ => 0 + 1 + (i : ℤ)) :=
    hnumbers ▸ hsub.map number
  have hrange : ∀ k ∈ got.map number, 1 ≤ k ∧ k ≤ sends.length := by
    intro k hk
    obtain ⟨i, hi, rfl⟩ := List.mem_map.mp (hsub.subset ((hperm.map number).mem_iff.mpr hk))
    have hlt := List.mem_range.mp hi
    omega
  have hnodup : (got.map number).Nodup := by
    apply (hperm.map number).nodup_iff.mp
    apply hsub.nodup
    apply List.Nodup.map _ List.nodup_range
    intro i j hij
    simpa using hij
  refine ⟨?_, ?_, ?_, ?_⟩
  · rcases hcounted.seen with h | h
    · omega
    · exact (hrange _ h).2
  · exact hcounted.seen.imp_right List.mem_map.mp
  · intro d hd
    exact hcounted.highest _ (List.mem_map_of_mem hd)
  · exact (card_missing hcounted hnodup fun k hk => (hrange k hk).1).symm

end Losses

section Example

def exampleDatagram (k : ℤ) : List UInt8 := header ⟨0, 0⟩ k ++ [0, 0]

def exampleSends : List (Timeval × Writes) := List.replicate 3 (⟨0, 0⟩, [.took 100])

/-- The third datagram comes before the first one, the second one never. -/
def exampleArrivals : List (Reads × Timeval) :=
  [([.data (exampleDatagram 3)], ⟨1, 0⟩), ([.data (exampleDatagram 1)], ⟨2, 0⟩)]

def exampleSender : Stream := { socket := 7, send_timer := true, buffer := List.replicate 18 0 }

def exampleReceiver : Stream := { socket := 5, buffer := List.replicate 18 0 }

theorem datagrams_lost_example : ∃ receiver', receiveDatagrams exampleArrivals exampleReceiver =
      .ok receiver' ∧ receiver'.packet_count = 3 ∧
    receiver'.cnt_error - receiver'.outoforder_packets =
      (missing receiver'.packet_count ([exampleDatagram 3, exampleDatagram 1].map number)).card := by
  have hsent : (sendDatagrams {} exampleSends exampleSender).toOption.map Prod.snd =
      some [exampleDatagram 1, exampleDatagram 2, exampleDatagram 3] := by decide +kernel
  have hreceived : (receiveDatagrams exampleArrivals exampleReceiver).toOption.map
      (·.packet_count) = some 3 := by decide +kernel
  cases hsends : sendDatagrams {} exampleSends exampleSender with
  | error e =>
    rw [hsends] at hsent
    cases hsent
  | ok sent =>
    cases hreceives : receiveDatagrams exampleArrivals exampleReceiver with
    | error e =>
      rw [hreceives] at hreceived
      cases hreceived
    | ok receiver' =>
      rw [hsends] at hsent
      rw [hreceives] at hreceived
      have hgot : List.Subperm [exampleDatagram 3, exampleDatagram 1] sent.2 := by
        rw [Option.some.inj hsent]
        decide +kernel
      have hbuffer : exampleReceiver.buffer.length = exampleSender.buffer.length := rfl
      refine ⟨receiver', rfl, Option.some.inj hreceived, ?_⟩
      refine (datagrams_lost rfl rfl (by decide) hsends hgot ?_ hbuffer rfl rfl rfl hreceives).2.2.2
      exact .cons ⟨by simp [Steady], rfl⟩ (.cons ⟨by simp [Steady], rfl⟩ .nil)

end Example
end Iperf
