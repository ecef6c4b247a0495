import VideoEditorOffloading.DecimalText
import VideoEditorOffloading.IperfTest

/-! # Exchanging the results

Each side sends its numbers as text: a line with its CPU utilization and one line for each stream.
The text goes behind its size and ends with a NUL. The client sends first. -/
namespace Iperf

open DecimalText SegmentedStreams

section Text

/-- `snprintf (buf, 128, …)` -/
def snprintf (text : List UInt8) : List UInt8 := text.take 127

def cpuLine (cpu_util : ℚ) : List UInt8 := [45, 67, 32] ++ fixedText cpu_util ++ [10]

/-- `"%d:%llu,%lf,%d,%d\n"` -/
def streamLine (bytes_transferred : iperf_size_t) (sp : Stream) : List UInt8 :=
  intText sp.id ++ [58] ++ intText bytes_transferred.toNat ++ [44] ++ fixedText sp.jitter ++ [44] ++
    intText sp.cnt_error ++ [44] ++ intText sp.packet_count ++ [10]

/-- The counter that a side reports: what it has sent or what it has received. -/
def Test.bytes_transferred (test : Test) (sp : Stream) : iperf_size_t :=
  sp.result.total test.direction

def resultsText (test : Test) : List UInt8 :=
  snprintf (cpuLine test.cpu_util) ++
    test.streams.flatMap fun sp => snprintf (streamLine (test.bytes_transferred sp) sp)

end Text

section Parsing

structure Fields where
  sid : ℤ := 0
  bytes_transferred : iperf_size_t := 0
  jitter : ℚ := 0
  cerror : ℤ := 0
  pcount : ℤ := 0
  deriving DecidableEq

abbrev Directive := Fields → List UInt8 → Option (Fields × List UInt8)

def literal (c : UInt8) : Directive := fun v cs => (scanChar c cs).map fun cs => (v, cs)

def conversion {β : Type} (scan : List UInt8 → Option (β × List UInt8)) (set : β → Fields → Fields) :
    Directive :=
  fun v cs => (scan cs).map fun (x, cs) => (set x v, cs)

/-- The first directive that does not match is the last one. -/
def sscanf : List Directive → Fields → List UInt8 → Fields
  | [], v, _ => v
  | f :: fs, v, cs =>
    match f v cs with
    | some (v, cs) => sscanf fs v cs
    | none => v

/-- `"%d:%llu,%lf,%d,%d\n"`. A number that does not fit is undefined in C and wraps here. -/
def resultFormat : List Directive :=
  [conversion scanInt fun x v => { v with sid := Int.bmod x (2 ^ 32) },
    literal 58,
    conversion scanInt fun x v => { v with bytes_transferred := UInt64.ofInt x },
    literal 44,
    conversion scanReal fun x v => { v with jitter := x },
    literal 44,
    conversion scanInt fun x v => { v with cerror := Int.bmod x (2 ^ 32) },
    literal 44,
    conversion scanInt fun x v => { v with pcount := Int.bmod x (2 ^ 32) }]

/-- `strchr (strp, '\n') + 1`; NULL if there is no end of line. -/
def nextLine : List UInt8 → Option (List UInt8)
  | [] => none
  | c :: cs => if c = 10 then some cs else nextLine cs

/-- What `strtok (…, " ")` returns, call after call. -/
def strtok (cs : List UInt8) : List (List UInt8) :=
  (cs.splitOnP (· == 32)).filter (· ≠ [])

def atof (cs : List UInt8) : ℚ := (scanReal cs).elim 0 (·.1)

/-- The tokens of the first line. `atof (NULL)` is undefined. -/
def parseCpu : List (List UInt8) → ℚ → Except Stuck ℚ
  | [], remote_cpu_util => return remote_cpu_util
  | tok :: toks, remote_cpu_util =>
    if tok = [45, 67] then
      match toks with
      | [] => throw .crashed
      | tok :: toks => parseCpu toks (atof tok)
    else parseCpu toks remote_cpu_util

def Stream.setResults (d : Direction) (v : Fields) (sp : Stream) : Stream :=
  match d with
  | .sends =>
    { sp with
      jitter := v.jitter
      cnt_error := v.cerror
      packet_count := v.pcount
      result := { sp.result with bytes_received := v.bytes_transferred } }
  | .receives => { sp with result := { sp.result with bytes_sent := v.bytes_transferred } }

def setResults (d : Direction) (v : Fields) : List Stream → Option (List Stream)
  | [] => none
  | sp :: streams =>
    if sp.id = v.sid then some (sp.setResults d v :: streams)
    else (setResults d v streams).map (sp :: ·)

theorem length_nextLine {cs cs' : List UInt8} (h : nextLine cs = some cs') :
    cs'.length < cs.length := by
  induction cs with
  | nil => cases h
  | cons c cs ih =>
    rw [nextLine] at h
    split at h
    · cases h
      exact Nat.lt_succ_self _
    · exact Nat.lt_succ_of_lt (ih h)

/-- The streams after the lines, and whether every id was known. The last line has to end. -/
def parseLines (d : Direction) (v : Fields) (cs : List UInt8) (streams : List Stream) :
    Except Stuck (List Stream × Bool) :=
  if cs = [] then return (streams, true)
  else
    let v := sscanf resultFormat v cs
    match setResults d v streams with
    | none => return (streams, false)
    | some streams =>
      match _h : nextLine cs with
      | none => throw .crashed
      | some cs' => parseLines d v cs' streams
termination_by cs.length
decreasing_by exact length_nextLine _h

/-- The characters in front of the NUL. Without a NUL they are read beyond the block. -/
def cstring (memory : List UInt8) : Except Stuck (List UInt8) :=
  if 0 ∈ memory then return memory.takeWhile (· ≠ 0) else throw .crashed

/-- `v` is what the stack holds. -/
def parse_results (v : Fields) (memory : List UInt8) : Native Unit := do
  let p ← get
  let results ← lift (cstring memory)
  match nextLine results with
  | none => throw (.stuck .crashed)
  | some strp =>
    let remote_cpu_util ← lift (parseCpu (strtok (results.takeWhile (· ≠ 10)))
      p.test.remote_cpu_util)
    modifyTest fun test => { test with remote_cpu_util }
    let (streams, known) ← lift (parseLines p.test.direction v strp p.test.streams)
    modifyTest fun test => { test with streams }
    if known then return else fail IESTREAMID

end Parsing

section Exchange

/-- What `malloc` and the stack hold before they are written. -/
structure Memory where
  /-- `malloc` returns NULL. -/
  exhausted : Bool := false
  block : ℕ → UInt8 := fun _ => 0
  fields : Fields := {}

def sendResults : Native Unit := do
  let p ← get
  let results := resultsText p.test
  let size := results.length + 1
  if (← writeCtrl (htonl size)) < 0 then fail IESENDRESULTS
  if (← writeCtrl (results ++ [0])) < 0 then fail IESENDRESULTS

/-- `size` holds `old` before. -/
def receiveResults (m : Memory) (old : List UInt8) : Native Unit := do
  let r ← readCtrl 4
  if r.result < 0 then fail IERECVRESULTS
  let size := ntohl (overlay r.buf old)
  if m.exhausted then fail IERECVRESULTS
  let r ← readCtrl (toInt size)
  if r.result < 0 then fail IERECVRESULTS
  parse_results m.fields (overlay r.buf ((List.range size).map m.block))

def iperf_exchange_results (m : Memory) : Native Unit := do
  let p ← get
  match p.test.role with
  | .client =>
    sendResults
    -- `size` still holds the size of what has been sent.
    receiveResults m (htonl ((resultsText p.test).length + 1))
  | .server =>
    receiveResults m ((List.range 4).map m.block)
    sendResults

end Exchange

section Lines

variable {sp : Stream} {b : iperf_size_t} {d : Direction} {cs : List UInt8}

/-- The numbers of a stream are an `int` where C has one, and its line fits into `buf`. -/
structure Stream.Fits (sp : Stream) : Prop where
  id : -2 ^ 31 ≤ sp.id ∧ sp.id < 2 ^ 31
  cnt_error : -2 ^ 31 ≤ sp.cnt_error ∧ sp.cnt_error < 2 ^ 31
  packet_count : -2 ^ 31 ≤ sp.packet_count ∧ sp.packet_count < 2 ^ 31
  jitter : |sp.jitter| ≤ 10 ^ 50

def Stream.fields (b : iperf_size_t) (sp : Stream) : Fields :=
  ⟨sp.id, b, shown sp.jitter, sp.cnt_error, sp.packet_count⟩

theorem bmod_int {x : ℤ} (h : -2 ^ 31 ≤ x ∧ x < 2 ^ 31) : Int.bmod x (2 ^ 32) = x := by
  have hmod : ((2 ^ 32 : ℕ) : ℤ) = 4294967296 := by norm_num
  apply Int.bmod_eq_of_le_mul_two
  · rw [hmod]
    omega
  · rw [hmod]
    omega

theorem sscanf_streamLine (hsp : sp.Fits) (v : Fields) (rest : List UInt8) :
    sscanf resultFormat v (streamLine b sp ++ rest) = sp.fields b := by
  have hcolon : ∀ cs, Ends (58 :: cs) := fun cs => Ends.cons ⟨rfl, by decide⟩
  have hcomma : ∀ cs, Ends (44 :: cs) := fun cs => Ends.cons ⟨rfl, by decide⟩
  have hnewline : ∀ cs, Ends (10 :: cs) := fun cs => Ends.cons ⟨rfl, by decide⟩
  simp only [resultFormat, sscanf, conversion, literal, streamLine, List.append_assoc,
    List.cons_append, List.nil_append, scanInt_intText _ (hcolon _),
    scanInt_intText _ (hcomma _), scanReal_fixedText _ (hcomma _),
    scanInt_intText _ (hnewline _), scanChar, Option.map_some, if_true]
  rw [Stream.fields, bmod_int hsp.id, bmod_int hsp.cnt_error, bmod_int hsp.packet_count,
    ofInt_toNat]

theorem nextLine_append (hcs : 10 ∉ cs) (rest : List UInt8) :
    nextLine (cs ++ 10 :: rest) = some rest := by
  induction cs with
  | nil => rfl
  | cons c cs ih =>
    have hc : c ≠ 10 := by
      rintro rfl
      exact hcs List.mem_cons_self
    rw [List.cons_append, nextLine, if_neg hc]
    exact ih fun h => hcs (List.mem_cons_of_mem c h)

theorem streamLine_eq (b : iperf_size_t) (sp : Stream) :
    ∃ text, streamLine b sp = text ++ [10] ∧ ∀ c ∈ text, 44 ≤ c.toNat ∧ c.toNat ≤ 58 := by
  refine ⟨_, rfl, ?_⟩
  intro c hc
  simp only [List.mem_append, List.mem_singleton, or_assoc] at hc
  have hrange : 45 ≤ c.toNat ∧ c.toNat ≤ 57 → 44 ≤ c.toNat ∧ c.toNat ≤ 58 := by omega
  rcases hc with hc | rfl | hc | rfl | hc | rfl | hc | rfl | hc
  · exact hrange (intText_range c hc)
  · decide
  · exact hrange (intText_range c hc)
  · decide
  · exact hrange (fixedText_range c hc)
  · decide
  · exact hrange (intText_range c hc)
  · decide
  · exact hrange (intText_range c hc)

theorem length_streamLine_le (hsp : sp.Fits) : (streamLine b sp).length ≤ 127 := by
  have hid : (intText sp.id).length ≤ 11 := length_intText_le (by norm_num) (by have := hsp.id; omega)
  have hb : (intText b.toNat).length ≤ 21 :=
    length_intText_le (by norm_num) (by have := b.toNat_lt; omega)
  have hcnt : (intText sp.cnt_error).length ≤ 11 :=
    length_intText_le (by norm_num) (by have := hsp.cnt_error; omega)
  have hpc : (intText sp.packet_count).length ≤ 11 :=
    length_intText_le (by norm_num) (by have := hsp.packet_count; omega)
  have hjitter := length_fixedText_le hsp.jitter
  simp only [streamLine, List.length_append, List.length_singleton]
  omega

theorem snprintf_streamLine (hsp : sp.Fits) : snprintf (streamLine b sp) = streamLine b sp :=
  List.take_of_length_le (length_streamLine_le hsp)

def exchanged (d : Direction) (f : StreamResult → iperf_size_t) (mine theirs : List Stream) :
    List Stream :=
  List.zipWith (fun sp their => sp.setResults d (their.fields (f their.result))) mine theirs

theorem setResults_append (v : Fields) (done todo : List Stream)
    (hdone : ∀ sp ∈ done, sp.id ≠ v.sid) (hsp : sp.id = v.sid) :
    setResults d v (done ++ sp :: todo) = some (done ++ sp.setResults d v :: todo) := by
  induction done with
  | nil => rw [List.nil_append, setResults, if_pos hsp, List.nil_append]
  | cons sp' done ih =>
    rw [List.cons_append, setResults, if_neg (hdone sp' List.mem_cons_self),
      ih fun sp h => hdone sp (List.mem_cons_of_mem sp' h)]
    rfl

@[simp] theorem setResults_id (v : Fields) : (sp.setResults d v).id = sp.id := by
  cases d <;> rfl

theorem parseLines_cons (v : Fields) (hcs : cs ≠ []) {streams streams' : List Stream}
    {rest : List UInt8} (hset : setResults d (sscanf resultFormat v cs) streams = some streams')
    (hrest : nextLine cs = some rest) :
    parseLines d v cs streams = parseLines d (sscanf resultFormat v cs) rest streams' := by
  rw [parseLines, if_neg hcs]
  simp only [hset]
  split
  · rename_i h
    rw [hrest] at h
    cases h
  · rename_i rest' h
    rw [hrest] at h
    cases h
    rfl

/-- Every line reaches its own stream. The induction is on the lines; `done` has been served. -/
theorem parseLines_lines (f : StreamResult → iperf_size_t) {theirs : List Stream} :
    ∀ (done todo : List Stream) (v : Fields), todo.map (·.id) = theirs.map (·.id) →
    ((done ++ todo).map (·.id)).Nodup → (∀ sp ∈ theirs, sp.Fits) →
    parseLines d v (theirs.flatMap fun sp => streamLine (f sp.result) sp) (done ++ todo) =
      .ok (done ++ exchanged d f todo theirs, true) := by
  induction theirs with
  | nil =>
    intro done todo v hids _ _
    obtain rfl : todo = [] := by simpa using hids
    rw [List.flatMap_nil, parseLines, if_pos rfl]
    rfl
  | cons their theirs ih =>
    intro done todo v hids hnodup hfits
    obtain ⟨sp, todo, rfl⟩ : ∃ sp rest, todo = sp :: rest := by
      cases todo with
      | nil => cases hids
      | cons sp rest => exact ⟨sp, rest, rfl⟩
    obtain ⟨hid, hids⟩ := List.cons.inj hids
    obtain ⟨text, htext, hrange⟩ := streamLine_eq (f their.result) their
    have hscan := sscanf_streamLine (b := f their.result) (hfits their List.mem_cons_self) v
      (theirs.flatMap fun sp => streamLine (f sp.result) sp)
    have hset := setResults_append (d := d) (their.fields (f their.result)) done todo ?_ hid
    · rw [List.flatMap_cons, parseLines_cons v ?_ (hscan ▸ hset) ?_, hscan]
      · have hnext := ih (done ++ [sp.setResults d (their.fields (f their.result))]) todo
          (their.fields (f their.result)) hids ?_
          fun sp h => hfits sp (List.mem_cons_of_mem their h)
        · rw [List.append_assoc, List.singleton_append] at hnext
          rw [hnext, List.append_assoc]
          rfl
        · simpa using hnodup
      · rw [htext]
        simp
      · rw [htext, List.append_assoc]
        exact nextLine_append (fun h => absurd (hrange 10 h).1 (by decide)) _
    · intro sp' hsp' heq
      rw [List.map_append, List.map_cons] at hnodup
      exact (List.nodup_append.mp hnodup).2.2 _ (List.mem_map_of_mem hsp') _ List.mem_cons_self
        (heq.trans hid.symm)

end Lines

section Messages

/-- The numbers of a test that C can hold, with no more streams than MAX_STREAMS. -/
structure Test.Fits (test : Test) : Prop where
  streams : ∀ sp ∈ test.streams, sp.Fits
  cpu_util : |test.cpu_util| ≤ 10 ^ 50
  few : test.streams.length ≤ 128

def resultsMessage (test : Test) : List UInt8 :=
  htonl ((resultsText test).length + 1) ++ (resultsText test ++ [0])

variable {test : Test} {p : Process}

theorem length_cpuLine_le {x : ℚ} (hx : |x| ≤ 10 ^ 50) : (cpuLine x).length ≤ 127 := by
  have hlen := length_fixedText_le hx
  simp only [cpuLine, List.length_append, List.length_cons, List.length_nil]
  omega

theorem resultsText_eq (h : test.Fits) : resultsText test = cpuLine test.cpu_util ++
    test.streams.flatMap fun sp => streamLine (sp.result.total test.direction) sp := by
  rw [resultsText, snprintf, List.take_of_length_le (length_cpuLine_le h.cpu_util)]
  congr 1
  apply List.flatMap_congr
  intro sp hsp
  rw [snprintf_streamLine (h.streams sp hsp)]
  rfl

theorem length_resultsText_le (hfew : test.streams.length ≤ 128) :
    (resultsText test).length ≤ 127 * 129 := by
  have hlines : ∀ streams : List Stream, (streams.flatMap fun sp =>
      snprintf (streamLine (test.bytes_transferred sp) sp)).length ≤ 127 * streams.length := by
    intro streams
    induction streams with
    | nil => simp
    | cons sp streams ih =>
      rw [List.flatMap_cons, List.length_append, List.length_cons, snprintf, List.length_take]
      omega
  have hstreams := hlines test.streams
  rw [resultsText, List.length_append, snprintf, List.length_take]
  omega

theorem sendResults_spec {n : ℕ} (h : p.ctrl.Open ((resultsMessage p.test).length + n)) :
    ∃ left, sendResults p = .ok () (p.sends (resultsMessage p.test) left) ∧
      (p.sends (resultsMessage p.test) left).ctrl.Open n := by
  rw [resultsMessage, List.length_append, Nat.add_assoc] at h
  obtain ⟨left₁, hsize, hopen₁⟩ := writeCtrl_spec h
  obtain ⟨left₂, htext, hopen₂⟩ := writeCtrl_spec hopen₁
  rw [Process.sends_sends] at htext hopen₂
  refine ⟨left₂, ?_, hopen₂⟩
  have hpos : ∀ k : ℕ, ¬ (k : ℤ) < 0 := fun k => by omega
  rw [sendResults, get_bind]
  simp only [bind_ok hsize, if_neg (hpos _), bind_ok htext]
  rfl

theorem resultsText_ne_zero (h : test.Fits) : ∀ c ∈ resultsText test, c ≠ 0 := by
  intro c hc
  rw [resultsText_eq h] at hc
  rcases List.mem_append.mp hc with hc | hc
  · simp only [cpuLine, List.mem_append, List.mem_cons, List.not_mem_nil, or_false] at hc
    rcases hc with ((rfl | rfl | rfl) | hc) | rfl
    · decide
    · decide
    · decide
    · rintro rfl
      exact absurd (fixedText_range 0 hc).1 (by decide)
    · decide
  · obtain ⟨sp, -, hc⟩ := List.mem_flatMap.mp hc
    obtain ⟨text, htext, hrange⟩ := streamLine_eq (sp.result.total test.direction) sp
    rw [htext] at hc
    rcases List.mem_append.mp hc with hc | hc
    · rintro rfl
      exact absurd (hrange 0 hc).1 (by decide)
    · rw [List.mem_singleton.mp hc]
      decide

theorem cstring_append {cs : List UInt8} (hcs : ∀ c ∈ cs, c ≠ 0) : cstring (cs ++ [0]) = .ok cs := by
  rw [cstring, if_pos (by simp), List.takeWhile_append_of_pos (by simpa using hcs)]
  simp [pure, Except.pure]

theorem strtok_cpuLine (x : ℚ) : strtok ([45, 67, 32] ++ fixedText x) = [[45, 67], fixedText x] := by
  have hfixed : (fixedText x).splitOnP (· == 32) = [fixedText x] := by
    apply List.splitOnP_eq_singleton
    intro c hc
    apply beq_false_of_ne
    rintro rfl
    exact absurd (fixedText_range 32 hc).1 (by decide)
  have hsplit : ([45, 67, 32] ++ fixedText x).splitOnP (· == 32) = [[45, 67], fixedText x] := by
    have hdash : ∀ c ∈ [(45 : UInt8), 67], (c == 32) = false := by simp
    exact (List.splitOnP_append_cons_of_forall_mem hdash 32 rfl (fixedText x)).trans
      (congrArg _ hfixed)
  have hne : fixedText x ≠ [] := by simp [fixedText]
  rw [strtok, hsplit]
  simp [hne]

theorem atof_fixedText (x : ℚ) : atof (fixedText x) = shown x := by
  have hscan := @scanReal_fixedText [] x fun c hc => by cases hc
  rw [List.append_nil] at hscan
  rw [atof, hscan]
  rfl

theorem parseCpu_cpuLine (x y : ℚ) :
    parseCpu (strtok ([45, 67, 32] ++ fixedText x)) y = .ok (shown x) := by
  rw [strtok_cpuLine, parseCpu, if_pos rfl, parseCpu, atof_fixedText]
  rfl

/-- A test that knows the streams of the other side, in the same order. -/
structure Paired (test other : Test) : Prop where
  ids : test.streams.map (·.id) = other.streams.map (·.id)
  nodup : (test.streams.map (·.id)).Nodup

def Test.receives (test other : Test) : Test :=
  { test with
    remote_cpu_util := shown other.cpu_util
    streams := exchanged test.direction (·.total other.direction) test.streams other.streams }

theorem parse_results_spec {other : Test} (v : Fields) (hfits : other.Fits)
    (hpaired : Paired p.test other) :
    parse_results v (resultsText other ++ [0]) p = .ok () { p with test := p.test.receives other } := by
  let lines := other.streams.flatMap fun sp => streamLine (sp.result.total other.direction) sp
  have htext : resultsText other = ([45, 67, 32] ++ fixedText other.cpu_util) ++ 10 :: lines := by
    rw [resultsText_eq hfits, cpuLine]
    simp only [List.append_assoc, List.singleton_append]
    rfl
  have hfirst : ∀ c ∈ [45, 67, 32] ++ fixedText other.cpu_util, c ≠ 10 := by
    intro c hc
    rintro rfl
    rcases List.mem_append.mp hc with hc | hc
    · revert hc
      decide
    · exact absurd (fixedText_range 10 hc).1 (by decide)
  have hnext : nextLine (resultsText other) = some lines := by
    rw [htext]
    exact nextLine_append (fun h => hfirst 10 h rfl) lines
  have htake : (resultsText other).takeWhile (· ≠ 10) =
      [45, 67, 32] ++ fixedText other.cpu_util := by
    rw [htext, List.takeWhile_append_of_pos (by simpa using hfirst)]
    simp
  have hlines : parseLines p.test.direction v lines p.test.streams =
      .ok (exchanged p.test.direction (·.total other.direction) p.test.streams other.streams,
        true) :=
    parseLines_lines (·.total other.direction) [] p.test.streams v hpaired.ids hpaired.nodup
      hfits.streams
  rw [parse_results, get_bind, lift_bind_ok (cstring_append (resultsText_ne_zero hfits)), hnext]
  simp only [htake, lift_bind_ok (parseCpu_cpuLine _ _), modifyTest_bind, lift_bind_ok hlines]
  rfl

theorem receiveResults_spec {other : Test} {m : Memory} (old rest : List UInt8)
    (hm : m.exhausted = false) (hold : old.length = 4) (hfits : other.Fits)
    (hpaired : Paired p.test other) (hsteady : Steady readAgain p.ctrl.reads)
    (hpay : payload p.ctrl.reads = resultsMessage other ++ rest) :
    ∃ left, receiveResults m old p =
        .ok () { p.reads left with test := p.test.receives other } ∧
      payload left = rest ∧ Steady readAgain left := by
  have hlen := length_resultsText_le hfits.few
  rw [resultsMessage, List.append_assoc] at hpay
  obtain ⟨left₁, hread₁, hpay₁, hsteady₁⟩ := readCtrl_spec hsteady hpay
  obtain ⟨left₂, hread₂, hpay₂, hsteady₂⟩ := readCtrl_spec (p := p.reads left₁) hsteady₁ hpay₁
  refine ⟨left₂, ?_, hpay₂, hsteady₂⟩
  have hpos : ∀ k : ℕ, ¬ (k : ℤ) < 0 := fun k => by omega
  have hsize : ntohl (overlay (htonl ((resultsText other).length + 1)) old) =
      (resultsText other).length + 1 := by
    rw [overlay_of_length (by rw [hold, length_htonl]), ntohl_htonl (by omega)]
  have hcount : toInt ((resultsText other).length + 1) = (resultsText other ++ [0]).length := by
    rw [toInt_of_lt (by omega), List.length_append, List.length_singleton]
  have hmemory : overlay (resultsText other ++ [0])
      ((List.range ((resultsText other).length + 1)).map m.block) = resultsText other ++ [0] :=
    overlay_of_length (by simp)
  have hfour : ((htonl ((resultsText other).length + 1)).length : ℤ) = 4 := by
    rw [length_htonl]
    rfl
  rw [hfour] at hread₁
  have hparse := parse_results_spec (p := (p.reads left₁).reads left₂) m.fields hfits hpaired
  rw [receiveResults]
  simp only [bind_ok hread₁, if_neg (by decide : ¬ (4 : ℤ) < 0), hsize, hm, Bool.false_eq_true,
    if_false, hcount, bind_ok hread₂, if_neg (hpos _), hmemory]
  exact hparse

end Messages

section Agreement

variable {c s : Process} {test other : Test}

def Direction.opposite : Direction → Direction
  | .sends => .receives
  | .receives => .sends

/-- What both sides know of each stream after the exchange. -/
structure Agreed (sender receiver sender' receiver' : Test) : Prop where
  sent : ∀ test ∈ [sender', receiver'],
    test.streams.map (·.result.bytes_sent) = sender.streams.map (·.result.bytes_sent)
  received : ∀ test ∈ [sender', receiver'],
    test.streams.map (·.result.bytes_received) = receiver.streams.map (·.result.bytes_received)
  lost : sender'.streams.map (fun sp => (sp.jitter, sp.cnt_error, sp.packet_count)) =
    receiver.streams.map fun sp => (shown sp.jitter, sp.cnt_error, sp.packet_count)
  remote : sender'.remote_cpu_util = shown receiver.cpu_util ∧
    receiver'.remote_cpu_util = shown sender.cpu_util

theorem direction_opposite (hc : c.test.role = .client) (hs : s.test.role = .server)
    (hreverse : c.test.reverse = s.test.reverse) :
    s.test.direction = c.test.direction.opposite := by
  rw [Test.direction, Test.direction, hc, hs, ← hreverse]
  cases c.test.reverse <;> rfl

theorem map_exchanged {β : Type} {g : Stream → β} {h : Stream → β} {d : Direction}
    {f : StreamResult → iperf_size_t} {mine theirs : List Stream}
    (hlen : mine.length = theirs.length)
    (hg : ∀ sp their : Stream, g (sp.setResults d (their.fields (f their.result))) = h their) :
    (exchanged d f mine theirs).map g = theirs.map h := by
  induction mine generalizing theirs with
  | nil =>
    obtain rfl : theirs = [] := List.length_eq_zero_iff.mp hlen.symm
    rfl
  | cons sp mine ih =>
    cases theirs with
    | nil => cases hlen
    | cons their theirs =>
      rw [exchanged, List.zipWith_cons_cons, List.map_cons, List.map_cons, hg]
      exact congrArg _ (ih (Nat.succ.inj hlen))

theorem map_exchanged_own {β : Type} {g : Stream → β} {d : Direction}
    {f : StreamResult → iperf_size_t} {mine theirs : List Stream}
    (hlen : mine.length = theirs.length)
    (hg : ∀ (sp : Stream) (v : Fields), g (sp.setResults d v) = g sp) :
    (exchanged d f mine theirs).map g = mine.map g := by
  induction mine generalizing theirs with
  | nil => rfl
  | cons sp mine ih =>
    cases theirs with
    | nil => cases hlen
    | cons their theirs =>
      rw [exchanged, List.zipWith_cons_cons, List.map_cons, List.map_cons, hg]
      exact congrArg _ (ih (Nat.succ.inj hlen))

theorem mem_exchanged {d : Direction} {f : StreamResult → iperf_size_t} {mine theirs : List Stream}
    {sp : Stream} (h : sp ∈ exchanged d f mine theirs) :
    ∃ own ∈ mine, ∃ their ∈ theirs, sp = own.setResults d (their.fields (f their.result)) := by
  induction mine generalizing theirs with
  | nil => cases h
  | cons own mine ih =>
    cases theirs with
    | nil => cases h
    | cons their theirs =>
      rcases List.mem_cons.mp h with rfl | h
      · exact ⟨own, List.mem_cons_self, their, List.mem_cons_self, rfl⟩
      · obtain ⟨own', hown, their', htheir, rfl⟩ := ih h
        exact ⟨own', List.mem_cons_of_mem _ hown, their', List.mem_cons_of_mem _ htheir, rfl⟩

theorem Paired.length (h : Paired test other) : test.streams.length = other.streams.length := by
  have hlen := congrArg List.length h.ids
  rwa [List.length_map, List.length_map] at hlen

theorem receives_streams : (test.receives other).streams =
    exchanged test.direction (·.total other.direction) test.streams other.streams := rfl

theorem receives_ids (h : Paired test other) :
    (test.receives other).streams.map (·.id) = test.streams.map (·.id) := by
  rw [receives_streams]
  exact map_exchanged_own (g := fun sp => sp.id) h.length fun _ v => setResults_id v

theorem abs_shown_le {x : ℚ} {k : ℕ} (hx : |x| ≤ 10 ^ k) : |shown x| ≤ 10 ^ k := by
  have hround : millionths x ≤ 10 ^ (k + 6) := by
    apply roundEven_le
    rw [pow_add]
    push_cast
    exact mul_le_mul_of_nonneg_right hx (by norm_num)
  have hcast : (millionths x : ℚ) ≤ 10 ^ k * 10 ^ 6 := by
    rw [← pow_add]
    exact_mod_cast hround
  have hsign : |(if x < 0 then -1 else 1 : ℚ)| = 1 := by
    split <;> norm_num
  have hnonneg : |((millionths x : ℚ) / 10 ^ 6)| = (millionths x : ℚ) / 10 ^ 6 :=
    abs_of_nonneg (by positivity)
  rw [shown, abs_mul, hsign, one_mul, hnonneg, div_le_iff₀ (by norm_num)]
  exact hcast

theorem receives_fits (htest : test.Fits) (hother : other.Fits) (h : Paired test other) :
    (test.receives other).Fits := by
  constructor
  · intro sp hsp
    rw [receives_streams] at hsp
    obtain ⟨own, hown, their, htheir, rfl⟩ := mem_exchanged hsp
    have hown := htest.streams own hown
    have htheir := hother.streams their htheir
    cases hd : test.direction with
    | sends => exact ⟨hown.id, htheir.cnt_error, htheir.packet_count, abs_shown_le htheir.jitter⟩
    | receives => exact ⟨hown.id, hown.cnt_error, hown.packet_count, hown.jitter⟩
  · exact htest.cpu_util
  · have hlen := congrArg List.length (receives_ids h)
    rw [List.length_map, List.length_map] at hlen
    rw [hlen]
    exact htest.few

theorem Paired.receives (h : Paired test other) : Paired other (test.receives other) :=
  ⟨h.ids.symm.trans (receives_ids h).symm, h.ids ▸ h.nodup⟩

theorem receives_sends (h : Paired test other) (hd : test.direction = .sends) :
    ((test.receives other).streams.map (·.result.bytes_sent) =
      test.streams.map (·.result.bytes_sent)) ∧
    ((test.receives other).streams.map (·.result.bytes_received) =
      other.streams.map (·.result.total other.direction)) ∧
    (test.receives other).streams.map (fun sp => (sp.jitter, sp.cnt_error, sp.packet_count)) =
      other.streams.map fun sp => (shown sp.jitter, sp.cnt_error, sp.packet_count) := by
  simp only [Test.receives, hd]
  refine ⟨?_, ?_, ?_⟩
  · exact map_exchanged_own (g := fun sp => sp.result.bytes_sent) h.length fun _ _ => rfl
  · exact map_exchanged (g := fun sp => sp.result.bytes_received) h.length fun _ _ => rfl
  · exact map_exchanged (g := fun sp => (sp.jitter, sp.cnt_error, sp.packet_count)) h.length
      fun _ _ => rfl

theorem receives_receives (h : Paired test other) (hd : test.direction = .receives) :
    ((test.receives other).streams.map (·.result.bytes_received) =
      test.streams.map (·.result.bytes_received)) ∧
    ((test.receives other).streams.map (·.result.bytes_sent) =
      other.streams.map (·.result.total other.direction)) ∧
    (test.receives other).streams.map (fun sp => (shown sp.jitter, sp.cnt_error, sp.packet_count)) =
      test.streams.map fun sp => (shown sp.jitter, sp.cnt_error, sp.packet_count) := by
  simp only [Test.receives, hd]
  refine ⟨?_, ?_, ?_⟩
  · exact map_exchanged_own (g := fun sp => sp.result.bytes_received) h.length fun _ _ => rfl
  · exact map_exchanged (g := fun sp => sp.result.bytes_sent) h.length fun _ _ => rfl
  · exact map_exchanged_own (g := fun sp => (shown sp.jitter, sp.cnt_error, sp.packet_count))
      h.length fun _ _ => rfl

theorem receives_direction : (test.receives other).direction = test.direction := rfl

/-- The receiver answers after it has read the sender's results, or before. -/
theorem agreed_of_sends {sender receiver : Test} (h : Paired sender receiver)
    (hs : sender.direction = .sends) (hr : receiver.direction = .receives) :
    Agreed sender receiver (sender.receives (receiver.receives sender))
      (receiver.receives sender) := by
  have h' : Paired receiver sender := ⟨h.ids.symm, h.ids ▸ h.nodup⟩
  obtain ⟨hrr, hrs, hrl⟩ := receives_receives h' hr
  obtain ⟨hss, hsr, hsl⟩ := receives_sends h'.receives hs
  rw [receives_direction, hr] at hsr
  rw [hs] at hrs
  constructor
  · intro test htest
    simp only [List.mem_cons, List.not_mem_nil, or_false] at htest
    rcases htest with rfl | rfl
    · exact hss
    · exact hrs
  · intro test htest
    simp only [List.mem_cons, List.not_mem_nil, or_false] at htest
    rcases htest with rfl | rfl
    · exact hsr.trans hrr
    · exact hrr
  · exact hsl.trans hrl
  · exact ⟨rfl, rfl⟩

theorem agreed_of_receives {sender receiver : Test} (h : Paired receiver sender)
    (hs : sender.direction = .sends) (hr : receiver.direction = .receives) :
    Agreed sender receiver (sender.receives receiver)
      (receiver.receives (sender.receives receiver)) := by
  have h' : Paired sender receiver := ⟨h.ids.symm, h.ids ▸ h.nodup⟩
  obtain ⟨hss, hsr, hsl⟩ := receives_sends h' hs
  obtain ⟨hrr, hrs, -⟩ := receives_receives h'.receives hr
  rw [hr] at hsr
  rw [receives_direction, hs] at hrs
  constructor
  · intro test htest
    simp only [List.mem_cons, List.not_mem_nil, or_false] at htest
    rcases htest with rfl | rfl
    · exact hss
    · exact hrs.trans hss
  · intro test htest
    simp only [List.mem_cons, List.not_mem_nil, or_false] at htest
    rcases htest with rfl | rfl
    · exact hsr
    · exact hrr
  · exact hsl
  · exact ⟨rfl, rfl⟩

/-- The results of a test: which side is the sender depends on `-R`. -/
def AgreedAt (d : Direction) (client server client' server' : Test) : Prop :=
  match d with
  | .sends => Agreed client server client' server'
  | .receives => Agreed server client server' client'

theorem agreedAt_receives {client server : Test} (h : Paired client server)
    (hd : server.direction = client.direction.opposite) :
    AgreedAt client.direction client server (client.receives (server.receives client))
      (server.receives client) := by
  cases hc : client.direction with
  | sends =>
    rw [hc] at hd
    exact agreed_of_sends h hc hd
  | receives =>
    rw [hc] at hd
    exact agreed_of_receives h hd hc

/-- With nothing to read the client has sent all its results, and waits. -/
theorem client_waits {m : Memory} (hc : c.test.role = .client)
    (hopen : c.ctrl.Open (resultsMessage c.test).length) :
    ∃ left, iperf_exchange_results m (c.reads []) = .error (.stuck .blocked)
      ((c.reads []).sends (resultsMessage c.test) left) := by
  obtain ⟨left, hsend, -⟩ := sendResults_spec (p := c.reads []) (n := 0) hopen
  refine ⟨left, ?_⟩
  rw [iperf_exchange_results, get_bind]
  have hrole : (c.reads []).test.role = .client := hc
  simp only [hrole]
  rw [bind_ok hsend]
  rfl

theorem server_answers {m : Memory} {up : Reads} (hs : s.test.role = .server)
    (hm : m.exhausted = false) (hfits : test.Fits) (hpaired : Paired s.test test)
    (hopen : s.ctrl.Open (resultsMessage (s.test.receives test)).length)
    (hsteady : Steady readAgain up) (hpay : payload up = resultsMessage test) :
    ∃ s', iperf_exchange_results m (s.reads up) = .ok () s' ∧
      s'.test = s.test.receives test ∧
      s'.ctrl.sent = s.ctrl.sent ++ resultsMessage (s.test.receives test) := by
  obtain ⟨left, hreceive, -, -⟩ := receiveResults_spec (p := s.reads up)
    ((List.range 4).map m.block) [] hm (by simp) hfits hpaired hsteady
    (by rw [List.append_nil]; exact hpay)
  obtain ⟨left', hsend, -⟩ := sendResults_spec (n := 0)
    (p := { (s.reads up).reads left with test := s.test.receives test }) hopen
  have hrun : iperf_exchange_results m (s.reads up) = sendResults
      { (s.reads up).reads left with test := s.test.receives test } := by
    rw [iperf_exchange_results, get_bind]
    have hrole : (s.reads up).test.role = .server := hs
    simp only [hrole]
    exact bind_ok hreceive
  exact ⟨_, hrun.trans hsend, rfl, rfl⟩

theorem exchange_client {c' : Process} (m : Memory) (hc : c.test.role = .client)
    (hsend : sendResults c = .ok () c') :
    iperf_exchange_results m c =
      receiveResults m (htonl ((resultsText c.test).length + 1)) c' := by
  rw [iperf_exchange_results, get_bind]
  simp only [hc]
  exact bind_ok hsend

theorem client_finishes {m : Memory} {down : Reads} (hc : c.test.role = .client)
    (hm : m.exhausted = false) (hfits : test.Fits) (hpaired : Paired c.test test)
    (hopen : c.ctrl.Open (resultsMessage c.test).length)
    (hsteady : Steady readAgain down) (hpay : payload down = resultsMessage test) :
    ∃ c', iperf_exchange_results m (c.reads down) = .ok () c' ∧
      c'.test = c.test.receives test := by
  obtain ⟨left, hsend, -⟩ := sendResults_spec (p := c.reads down) (n := 0) hopen
  obtain ⟨left', hreceive, -, -⟩ := receiveResults_spec
    (p := (c.reads down).sends (resultsMessage c.test) left)
    (htonl ((resultsText c.test).length + 1)) [] hm (length_htonl _) hfits hpaired
    hsteady (by rw [List.append_nil]; exact hpay)
  exact ⟨_, (exchange_client (c := c.reads down) m hc hsend).trans hreceive, rfl⟩

/-- Over a connection that cuts the bytes anywhere, the client sends its results, the server reads
them and answers, and the client reads the answer. Afterwards both know the same numbers. -/
theorem results_agreed {m m' : Memory} (hc : c.test.role = .client) (hs : s.test.role = .server)
    (hreverse : c.test.reverse = s.test.reverse) (hpaired : Paired c.test s.test)
    (hcfits : c.test.Fits) (hsfits : s.test.Fits)
    (hcopen : c.ctrl.Open (resultsMessage c.test).length)
    (hsopen : s.ctrl.Open (resultsMessage (s.test.receives c.test)).length)
    (hm : m.exhausted = false) (hm' : m'.exhausted = false) :
    ∃ c₁, iperf_exchange_results m (c.reads []) = .error (.stuck .blocked) c₁ ∧
      ∀ up, Steady readAgain up → c₁.ctrl.sent = c.ctrl.sent ++ payload up →
        ∃ s', iperf_exchange_results m' (s.reads up) = .ok () s' ∧
          ∀ down, Steady readAgain down → s'.ctrl.sent = s.ctrl.sent ++ payload down →
            ∃ c', iperf_exchange_results m (c.reads down) = .ok () c' ∧
              AgreedAt c.test.direction c.test s.test c'.test s'.test := by
  have hopposite := direction_opposite hc hs hreverse
  have hpaired' : Paired s.test c.test := ⟨hpaired.ids.symm, hpaired.ids ▸ hpaired.nodup⟩
  obtain ⟨left, hwait⟩ := client_waits (m := m) hc hcopen
  refine ⟨_, hwait, ?_⟩
  intro up hup hsent
  have hpayload : payload up = resultsMessage c.test := (List.append_cancel_left hsent).symm
  obtain ⟨s', hserver, htest, hsent'⟩ :=
    server_answers hs hm' hcfits hpaired' hsopen hup hpayload
  refine ⟨s', hserver, ?_⟩
  intro down hdown hsent
  have hpayload' : payload down = resultsMessage (s.test.receives c.test) :=
    List.append_cancel_left (hsent.symm.trans hsent')
  obtain ⟨c', hclient, htest'⟩ := client_finishes hc hm (receives_fits hsfits hcfits hpaired')
    hpaired'.receives hcopen hdown hpayload'
  refine ⟨c', hclient, ?_⟩
  rw [htest, htest']
  exact agreedAt_receives hpaired hopposite

end Agreement

section Example

def agreedStreams (bytes_sent bytes_received : iperf_size_t) (cnt_error : ℤ) : List Stream :=
  [{ socket := 7, id := 1, buffer := [], result := { bytes_sent, bytes_received }, cnt_error },
    { socket := 8, id := 3, buffer := [], jitter := 1 / 3 }]

def agreedClient : Process where
  test := { role := .client, cpu_util := 5 / 2, streams := agreedStreams 9 0 0 }
  ctrl := { reads := [], writes := List.replicate 20000 (.took 1) }

def agreedServer : Process where
  test := { role := .server, streams := agreedStreams 0 6 (-1) }
  ctrl := { reads := [], writes := List.replicate 20000 (.took 1) }

theorem agreedStreams_fits {bytes_sent bytes_received : iperf_size_t} {cnt_error : ℤ}
    (h : cnt_error = 0 ∨ cnt_error = -1) :
    ∀ sp ∈ agreedStreams bytes_sent bytes_received cnt_error, sp.Fits := by
  intro sp hsp
  simp only [agreedStreams, List.mem_cons, List.not_mem_nil, or_false] at hsp
  rcases hsp with rfl | rfl
  · refine ⟨by norm_num, ?_, by norm_num, by norm_num⟩
    rcases h with rfl | rfl
    · norm_num
    · norm_num
  · exact ⟨by norm_num, by norm_num, by norm_num, by norm_num [abs_of_nonneg]⟩

theorem results_agreed_example :
    ∃ c₁, iperf_exchange_results {} (agreedClient.reads []) = .error (.stuck .blocked) c₁ ∧
      ∀ up, Steady readAgain up → c₁.ctrl.sent = payload up →
        ∃ s', iperf_exchange_results {} (agreedServer.reads up) = .ok () s' ∧
          ∀ down, Steady readAgain down → s'.ctrl.sent = payload down →
            ∃ c', iperf_exchange_results {} (agreedClient.reads down) = .ok () c' ∧
              Agreed agreedClient.test agreedServer.test c'.test s'.test := by
  have hpaired : Paired agreedClient.test agreedServer.test := ⟨rfl, by decide⟩
  have hcfits : agreedClient.test.Fits :=
    ⟨agreedStreams_fits (Or.inl rfl), by norm_num [agreedClient, abs_of_nonneg], by decide⟩
  have hsfits : agreedServer.test.Fits :=
    ⟨agreedStreams_fits (Or.inr rfl), by norm_num [agreedServer], by decide⟩
  have hlen : ∀ test : Test, test.streams.length ≤ 128 → (resultsMessage test).length ≤ 20000 := by
    intro test hfew
    have htext := length_resultsText_le hfew
    simp only [resultsMessage, List.length_append, length_htonl, List.length_singleton]
    omega
  exact results_agreed rfl rfl rfl hpaired hcfits hsfits
    (open_replicate (k := 20000) (l := 0) rfl (hlen _ (by decide)))
    (open_replicate (k := 20000) (l := 0) rfl (hlen _ (by decide))) rfl rfl

end Example

end Iperf
