import VideoEditorOffloading.CommandOptions
import VideoEditorOffloading.IperfClient

/-! # Exchanging the parameters

The client sends the parameters of the test as the words of a command line. The server reads them
with `getopt`, which takes the first word for the name of a program. What a `char` is matters twice:
for the length of the text, and for the end of the options. -/
namespace Iperf

open CommandOptions DecimalText SegmentedStreams

def IERECVPARAMS : ℕ := 24

section Parsing

def parameterLetters : Letters := fun c =>
  if c ∈ [112, 117, 78, 82] then some false
  else if c ∈ [116, 110, 109, 80, 119, 108, 98, 83] then some true
  else none

/-- A number that does not fit is undefined in C and wraps here. -/
def atoi (cs : List UInt8) : ℤ := Int.bmod ((scanInt cs).elim 0 (·.1)) (2 ^ 32)

/-- A `long long`: a number that does not fit becomes the nearest one that does. -/
def atoll (cs : List UInt8) : UInt64 :=
  UInt64.ofInt (max (-2 ^ 63) (min (2 ^ 63 - 1) ((scanInt cs).elim 0 (·.1))))

def Test.setParameter (test : Test) : Opt → Test
  | .flag c =>
    if c = 112 then { test with protocol := .Ptcp }
    else if c = 117 then { test with protocol := .Pudp }
    else if c = 78 then { test with no_delay := true }
    else if c = 82 then { test with reverse := true }
    else test
  | .valued c optarg =>
    if c = 116 then { test with duration := atoi optarg }
    else if c = 110 then { test with settings := { test.settings with bytes := atoll optarg } }
    else if c = 109 then { test with settings := { test.settings with mss := atoi optarg } }
    else if c = 80 then { test with num_streams := (atoi optarg).toNat }
    else if c = 119 then
      { test with settings := { test.settings with socket_bufsize := atoi optarg } }
    else if c = 108 then
      { test with settings := { test.settings with blksize := (atoi optarg).toNat } }
    else if c = 98 then { test with settings := { test.settings with rate := atoll optarg } }
    else if c = 83 then { test with settings := { test.settings with tos := atoi optarg } }
    else test

/-- A `char`, which has a sign or not. -/
def toChar (signed : Bool) (b : UInt8) : ℤ :=
  if signed = true ∧ 128 ≤ b.toNat then b.toNat - 256 else b.toNat

/-- `pstring` is filled with zeros before. `len` keeps its value when the connection is closed. -/
def parse_parameters (signed : Bool) (m : Memory) : Native Unit := do
  let r ← readCtrl 1
  if r.result < 0 then fail IERECVPARAMS
  let len := (overlay r.buf [m.block 0]).headD 0
  let r ← readCtrl (toChar signed len)
  if r.result < 0 then fail IERECVPARAMS
  let pstring := (overlay r.buf (List.replicate 256 0)).takeWhile (· ≠ 0)
  let params := strtok pstring
  modifyTest fun test => (getopt parameterLetters (params.drop 1)).foldl Test.setParameter test
  -- Without a sign `ch` is 255 at the end of the options, not -1, and the loop goes on.
  if signed = false then throw (.stuck .blocked)

end Parsing

section Options

variable {test : Test}

def valued (c : UInt8) (x : ℤ) : List Opt := if x = 0 then [] else [.valued c (intText x)]

def flagged (c : UInt8) (b : Bool) : List Opt := if b then [.flag c] else []

/-- What the server takes for the name of a program. -/
def protocolOption : Prot → Opt
  | .Ptcp => .flag 112
  | .Pudp => .flag 117

def options (test : Test) : List Opt :=
  [.valued 80 (intText test.num_streams)] ++
  flagged 82 test.reverse ++
  valued 119 test.settings.socket_bufsize ++
  valued 98 test.settings.rate.toNat ++
  valued 109 test.settings.mss ++
  flagged 78 test.no_delay ++
  valued 110 test.settings.bytes.toNat ++
  valued 116 test.duration ++
  valued 108 test.settings.blksize ++
  valued 83 test.settings.tos

def optionText (opt : Opt) : List UInt8 := opt.words.flatMap (· ++ [32])

theorem option_text (c : UInt8) (x : ℤ) : option c x = (valued c x).flatMap optionText := by
  rw [option, valued]
  split
  · rfl
  · simp [optionText, Opt.words]

theorem flag_text (c : UInt8) (b : Bool) : flag c b = (flagged c b).flatMap optionText := by
  cases b <;> rfl

theorem parameters_eq (test : Test) :
    parameters test = (protocolOption test.protocol :: options test).flatMap optionText := by
  have hprotocol : protocolFlag test.protocol = optionText (protocolOption test.protocol) := by
    cases test.protocol <;> rfl
  have hstreams : [45, 80, 32] ++ intText test.num_streams ++ [32] =
      optionText (.valued 80 (intText test.num_streams)) := by
    simp [optionText, Opt.words]
  rw [parameters, hprotocol, hstreams]
  simp only [option_text, flag_text, options, List.flatMap_cons, List.flatMap_append,
    List.flatMap_nil, List.append_nil, List.append_assoc]

theorem strtok_words {words : List (List UInt8)} (h : ∀ w ∈ words, w ≠ [] ∧ 32 ∉ w) :
    strtok (words.flatMap (· ++ [32])) = words := by
  have hsplit : ∀ words : List (List UInt8), (∀ w ∈ words, 32 ∉ w) →
      (words.flatMap (· ++ [32])).splitOnP (· == 32) = words ++ [[]] := by
    intro words hwords
    induction words with
    | nil => rfl
    | cons w words ih =>
      obtain ⟨hw, hwords⟩ := List.forall_mem_cons.mp hwords
      have hw' : ∀ c ∈ w, (c == 32) = false := by
        intro c hc
        apply beq_false_of_ne
        rintro rfl
        exact hw hc
      rw [List.flatMap_cons, List.append_assoc, List.singleton_append,
        List.splitOnP_append_cons_of_forall_mem hw' 32 rfl, ih hwords]
      rfl
  rw [strtok, hsplit words fun w hw => (h w hw).2, List.filter_append]
  have hall : words.filter (· ≠ []) = words := by
    rw [List.filter_eq_self]
    intro w hw
    simpa using (h w hw).1
  rw [hall]
  exact List.append_nil words

theorem options_forall {P : Opt → Prop}
    (hvalued : ∀ l ∈ [(80 : UInt8), 119, 98, 109, 110, 116, 108, 83], ∀ x,
      P (.valued l (intText x)))
    (hflagged : ∀ l ∈ [(82 : UInt8), 78], P (.flag l)) : ∀ opt ∈ options test, P opt := by
  have hvalued' : ∀ l ∈ [(80 : UInt8), 119, 98, 109, 110, 116, 108, 83], ∀ x,
      ∀ opt ∈ valued l x, P opt := by
    intro l hl x opt hopt
    rw [valued] at hopt
    split at hopt
    · cases hopt
    · rw [List.mem_singleton.mp hopt]
      exact hvalued l hl x
  have hflagged' : ∀ l ∈ [(82 : UInt8), 78], ∀ b, ∀ opt ∈ flagged l b, P opt := by
    intro l hl b opt hopt
    cases b with
    | false => cases hopt
    | true =>
      rw [List.mem_singleton.mp hopt]
      exact hflagged l hl
  intro opt hopt
  simp only [options, List.mem_append, or_assoc] at hopt
  rcases hopt with hopt | hopt | hopt | hopt | hopt | hopt | hopt | hopt | hopt | hopt
  · rw [List.mem_singleton.mp hopt]
    exact hvalued 80 (by decide) _
  · exact hflagged' 82 (by decide) _ opt hopt
  · exact hvalued' 119 (by decide) _ opt hopt
  · exact hvalued' 98 (by decide) _ opt hopt
  · exact hvalued' 109 (by decide) _ opt hopt
  · exact hflagged' 78 (by decide) _ opt hopt
  · exact hvalued' 110 (by decide) _ opt hopt
  · exact hvalued' 116 (by decide) _ opt hopt
  · exact hvalued' 108 (by decide) _ opt hopt
  · exact hvalued' 83 (by decide) _ opt hopt

theorem options_written : ∀ opt ∈ options test, opt.Written parameterLetters := by
  apply options_forall
  · intro l hl x
    have hletters : ∀ l ∈ [(80 : UInt8), 119, 98, 109, 110, 116, 108, 83],
        l ≠ 45 ∧ parameterLetters l = some true := by
      simp [parameterLetters]
    exact hletters l hl
  · intro l hl
    have hletters : ∀ l ∈ [(82 : UInt8), 78], l ≠ 45 ∧ parameterLetters l = some false := by
      simp [parameterLetters]
    exact hletters l hl

end Options

section Settings

variable {test other : Test} {x : ℤ}

/-- The parameters are an `int` where C has one, and a `long long` where the server reads one. -/
structure Test.Expressible (test : Test) : Prop where
  num_streams : test.num_streams < 2 ^ 31
  duration : -2 ^ 31 ≤ test.duration ∧ test.duration < 2 ^ 31
  socket_bufsize : -2 ^ 31 ≤ test.settings.socket_bufsize ∧ test.settings.socket_bufsize < 2 ^ 31
  mss : -2 ^ 31 ≤ test.settings.mss ∧ test.settings.mss < 2 ^ 31
  tos : -2 ^ 31 ≤ test.settings.tos ∧ test.settings.tos < 2 ^ 31
  blksize : test.settings.blksize < 2 ^ 31
  rate : test.settings.rate.toNat < 2 ^ 63
  bytes : test.settings.bytes.toNat < 2 ^ 63

/-- A parameter that is 0 is not sent. -/
def heard {α : Type} [Zero α] [DecidableEq α] (old new : α) : α := if new = 0 then old else new

/-- The test after it has heard of another one. The protocol stays what it was. -/
def Test.hears (test other : Test) : Test :=
  { test with
    num_streams := other.num_streams
    reverse := test.reverse || other.reverse
    no_delay := test.no_delay || other.no_delay
    duration := heard test.duration other.duration
    settings := { test.settings with
      socket_bufsize := heard test.settings.socket_bufsize other.settings.socket_bufsize
      rate := heard test.settings.rate other.settings.rate
      mss := heard test.settings.mss other.settings.mss
      bytes := heard test.settings.bytes other.settings.bytes
      blksize := heard test.settings.blksize other.settings.blksize
      tos := heard test.settings.tos other.settings.tos } }

theorem scanInt_alone (x : ℤ) : scanInt (intText x) = some (x, []) := by
  have hscan := @scanInt_intText [] x fun c hc => by cases hc
  rwa [List.append_nil] at hscan

theorem atoi_intText (hx : -2 ^ 31 ≤ x ∧ x < 2 ^ 31) : atoi (intText x) = x := by
  rw [atoi, scanInt_alone]
  exact bmod_int hx

theorem atoll_intText {x : UInt64} (hx : x.toNat < 2 ^ 63) : atoll (intText x.toNat) = x := by
  rw [atoll, scanInt_alone, Option.elim_some, min_eq_right (by omega), max_eq_right (by omega)]
  exact ofInt_toNat x

theorem foldl_valued {c : UInt8} {t u : Test} (hzero : x = 0 → t = u)
    (hset : x ≠ 0 → t.setParameter (.valued c (intText x)) = u) :
    (valued c x).foldl Test.setParameter t = u := by
  rw [valued]
  split
  · rename_i h
    exact hzero h
  · rename_i h
    exact hset h

theorem heard_zero {α : Type} [Zero α] [DecidableEq α] (old : α) : heard old 0 = old := if_pos rfl

theorem heard_ne {α : Type} [Zero α] [DecidableEq α] {old new : α} (h : new ≠ 0) :
    heard old new = new := if_neg h

theorem foldl_flagged_reverse (t : Test) (b : Bool) :
    (flagged 82 b).foldl Test.setParameter t = { t with reverse := t.reverse || b } := by
  cases b with
  | false => simp [flagged]
  | true => simp [flagged, Test.setParameter]

theorem foldl_flagged_no_delay (t : Test) (b : Bool) :
    (flagged 78 b).foldl Test.setParameter t = { t with no_delay := t.no_delay || b } := by
  cases b with
  | false => simp [flagged]
  | true => simp [flagged, Test.setParameter]

theorem uint64_ne {x : UInt64} (h : (x.toNat : ℤ) ≠ 0) : x ≠ 0 := by
  rintro rfl
  exact h rfl

theorem uint64_zero {x : UInt64} (h : (x.toNat : ℤ) = 0) : x = 0 :=
  UInt64.toNat_inj.mp (Int.natCast_eq_zero.mp h)

theorem foldl_options (h : other.Expressible) :
    (options other).foldl Test.setParameter test = test.hears other := by
  have hstreams : ∀ t : Test, [Opt.valued 80 (intText other.num_streams)].foldl
      Test.setParameter t = { t with num_streams := other.num_streams } := by
    intro t
    have hfit := h.num_streams
    simp [Test.setParameter, atoi_intText (x := other.num_streams) (by omega)]
  have hbufsize : ∀ t : Test, (valued 119 other.settings.socket_bufsize).foldl
      Test.setParameter t = { t with settings := { t.settings with
        socket_bufsize := heard t.settings.socket_bufsize other.settings.socket_bufsize } } := by
    intro t
    apply foldl_valued
    · intro hx
      rw [hx, heard_zero]
    · intro hx
      simp [Test.setParameter, atoi_intText h.socket_bufsize, heard_ne hx]
  have hrate : ∀ t : Test, (valued 98 other.settings.rate.toNat).foldl
      Test.setParameter t = { t with settings := { t.settings with
        rate := heard t.settings.rate other.settings.rate } } := by
    intro t
    apply foldl_valued
    · intro hx
      rw [uint64_zero hx, heard_zero]
    · intro hx
      simp [Test.setParameter, atoll_intText h.rate, heard_ne (uint64_ne hx)]
  have hmss : ∀ t : Test, (valued 109 other.settings.mss).foldl
      Test.setParameter t = { t with settings := { t.settings with
        mss := heard t.settings.mss other.settings.mss } } := by
    intro t
    apply foldl_valued
    · intro hx
      rw [hx, heard_zero]
    · intro hx
      simp [Test.setParameter, atoi_intText h.mss, heard_ne hx]
  have hbytes : ∀ t : Test, (valued 110 other.settings.bytes.toNat).foldl
      Test.setParameter t = { t with settings := { t.settings with
        bytes := heard t.settings.bytes other.settings.bytes } } := by
    intro t
    apply foldl_valued
    · intro hx
      rw [uint64_zero hx, heard_zero]
    · intro hx
      simp [Test.setParameter, atoll_intText h.bytes, heard_ne (uint64_ne hx)]
  have hduration : ∀ t : Test, (valued 116 other.duration).foldl
      Test.setParameter t = { t with duration := heard t.duration other.duration } := by
    intro t
    apply foldl_valued
    · intro hx
      rw [hx, heard_zero]
    · intro hx
      simp [Test.setParameter, atoi_intText h.duration, heard_ne hx]
  have hblksize : ∀ t : Test, (valued 108 other.settings.blksize).foldl
      Test.setParameter t = { t with settings := { t.settings with
        blksize := heard t.settings.blksize other.settings.blksize } } := by
    intro t
    have hfit := h.blksize
    apply foldl_valued
    · intro hx
      rw [Int.natCast_eq_zero.mp hx, heard_zero]
    · intro hx
      simp [Test.setParameter, atoi_intText (x := other.settings.blksize) (by omega),
        heard_ne (fun h => hx (Int.natCast_eq_zero.mpr h))]
  have htos : ∀ t : Test, (valued 83 other.settings.tos).foldl
      Test.setParameter t = { t with settings := { t.settings with
        tos := heard t.settings.tos other.settings.tos } } := by
    intro t
    apply foldl_valued
    · intro hx
      rw [hx, heard_zero]
    · intro hx
      simp [Test.setParameter, atoi_intText h.tos, heard_ne hx]
  rw [options]
  simp only [List.foldl_append, hstreams, hbufsize, hrate, hmss, hbytes, hduration, hblksize, htos,
    foldl_flagged_reverse, foldl_flagged_no_delay]
  rfl

end Settings

section Exchange

variable {test other : Test} {c s p : Process}

theorem length_option_le {l : UInt8} {x : ℤ} {k : ℕ} (hk : 0 < k) (hx : x.natAbs < 10 ^ k) :
    (option l x).length ≤ k + 5 := by
  have hlen := length_intText_le hk hx
  rw [option]
  split
  · exact Nat.zero_le _
  · simp only [List.length_append, List.length_cons, List.length_nil]
    omega

/-- The text fits into `pstring`, but its length may not be a positive `char`. -/
theorem length_parameters_le (h : test.Expressible) : (parameters test).length ≤ 147 := by
  have hprotocol : (protocolFlag test.protocol).length = 3 := by
    cases test.protocol <;> rfl
  have hflag : ∀ c b, (flag c b).length ≤ 3 := by
    intro c b
    cases b with
    | false => exact Nat.zero_le _
    | true => exact Nat.le_refl _
  have hreverse := hflag 82 test.reverse
  have hno_delay := hflag 78 test.no_delay
  have hint : ∀ x : ℤ, -2 ^ 31 ≤ x ∧ x < 2 ^ 31 → x.natAbs < 10 ^ 10 := by
    intro x hx
    omega
  have hnum_streams : (intText test.num_streams).length ≤ 11 :=
    length_intText_le (by norm_num) (hint _ (by have := h.num_streams; omega))
  have hbufsize := length_option_le (l := 119) (by norm_num) (hint _ h.socket_bufsize)
  have hrate : (option 98 test.settings.rate.toNat).length ≤ 24 :=
    length_option_le (by norm_num) (by have := h.rate; omega)
  have hmss := length_option_le (l := 109) (by norm_num) (hint _ h.mss)
  have hbytes : (option 110 test.settings.bytes.toNat).length ≤ 24 :=
    length_option_le (by norm_num) (by have := h.bytes; omega)
  have hduration := length_option_le (l := 116) (by norm_num) (hint _ h.duration)
  have hblksize : (option 108 test.settings.blksize).length ≤ 15 :=
    length_option_le (by norm_num) (hint _ (by have := h.blksize; omega))
  have htos := length_option_le (l := 83) (by norm_num) (hint _ h.tos)
  simp only [parameters, List.length_append, List.length_cons, List.length_nil]
  omega

def parametersMessage (test : Test) : List UInt8 :=
  UInt8.ofNat (parameters test).length :: parameters test

theorem package_parameters_spec {n : ℕ} (h : p.test.Expressible)
    (hopen : p.ctrl.Open ((parametersMessage p.test).length + n)) :
    ∃ left, package_parameters p = .ok () (p.sends (parametersMessage p.test) left) ∧
      (p.sends (parametersMessage p.test) left).ctrl.Open n := by
  have hlen := length_parameters_le h
  obtain ⟨left, hwrite, hopen'⟩ := writeCtrl_spec hopen
  refine ⟨left, ?_, hopen'⟩
  have hpos : ∀ k : ℕ, ¬ (k : ℤ) < 0 := fun k => by omega
  rw [package_parameters, get_bind]
  simp only [if_neg (by omega : ¬ 256 ≤ (parameters p.test).length + 1)]
  exact (bind_ok hwrite).trans (by rw [if_neg (hpos _)]; rfl)

theorem word_range : ∀ opt ∈ protocolOption test.protocol :: options test,
    ∀ w ∈ opt.words, w ≠ [] ∧ ∀ c ∈ w, 45 ≤ c.toNat := by
  have hflag : ∀ l : UInt8, 45 ≤ l.toNat →
      ∀ w ∈ (Opt.flag l).words, w ≠ [] ∧ ∀ c ∈ w, 45 ≤ c.toNat := by
    intro l hl w hw
    rw [List.mem_singleton.mp hw]
    exact ⟨by simp, by simpa using hl⟩
  rw [List.forall_mem_cons]
  constructor
  · cases test.protocol with
    | Ptcp => exact hflag 112 (by decide)
    | Pudp => exact hflag 117 (by decide)
  apply options_forall
  · intro l hl x w hw
    have hletters : ∀ l ∈ [(80 : UInt8), 119, 98, 109, 110, 116, 108, 83], 45 ≤ l.toNat := by
      simp
    simp only [Opt.words, List.mem_cons, List.not_mem_nil, or_false] at hw
    rcases hw with rfl | rfl
    · exact ⟨by simp, by simpa using hletters l hl⟩
    · refine ⟨?_, fun c hc => (intText_range c hc).1⟩
      rw [intText_eq]
      exact List.append_ne_nil_of_right_ne_nil _ (natText_ne_nil _)
  · intro l hl
    have hletters : ∀ l ∈ [(82 : UInt8), 78], 45 ≤ l.toNat := by
      simp
    exact hflag l (hletters l hl)

theorem strtok_parameters (test : Test) :
    strtok (parameters test) = (protocolOption test.protocol :: options test).flatMap Opt.words := by
  have htext : parameters test =
      ((protocolOption test.protocol :: options test).flatMap Opt.words).flatMap (· ++ [32]) := by
    rw [parameters_eq, List.flatMap_assoc]
    rfl
  rw [htext]
  apply strtok_words
  intro w hw
  obtain ⟨opt, hopt, hw⟩ := List.mem_flatMap.mp hw
  obtain ⟨hne, hrange⟩ := word_range opt hopt w hw
  exact ⟨hne, fun h => absurd (hrange 32 h) (by decide)⟩

theorem parameters_ne_zero : ∀ c ∈ parameters test, c ≠ 0 := by
  intro c hc
  rw [parameters_eq] at hc
  obtain ⟨opt, hopt, hc⟩ := List.mem_flatMap.mp hc
  obtain ⟨w, hw, hc⟩ := List.mem_flatMap.mp hc
  rcases List.mem_append.mp hc with hc | hc
  · rintro rfl
    exact absurd ((word_range opt hopt w hw).2 0 hc) (by decide)
  · rw [List.mem_singleton.mp hc]
    decide

theorem parsed_parameters (h : other.Expressible) :
    (getopt parameterLetters ((strtok (parameters other)).drop 1)).foldl Test.setParameter test =
      test.hears other := by
  have hdrop : (strtok (parameters other)).drop 1 = (options other).flatMap Opt.words := by
    rw [strtok_parameters, List.flatMap_cons]
    cases other.protocol with
    | Ptcp => rfl
    | Pudp => rfl
  rw [hdrop, getopt_words options_written]
  exact foldl_options h

theorem toNat_ofNat {n : ℕ} (hn : n < 256) : (UInt8.ofNat n).toNat = n := by
  rw [UInt8.toNat_ofNat']
  omega

theorem toChar_fits {signed : Bool} {n : ℕ} (hn : n < 256) (h : signed = false ∨ n < 128) :
    toChar signed (UInt8.ofNat n) = n := by
  rw [toChar, toNat_ofNat hn, if_neg]
  rintro ⟨rfl, hlong⟩
  rcases h with h | h
  · cases h
  · omega

theorem toChar_of_ge {n : ℕ} (hn : 128 ≤ n) (hn' : n < 256) :
    toChar true (UInt8.ofNat n) ≤ 0 := by
  rw [toChar, toNat_ofNat hn', if_pos ⟨rfl, hn⟩]
  omega

theorem readCtrl_none {count : ℤ} (hcount : count ≤ 0) :
    readCtrl count p = .ok ⟨0, [], p.ctrl.reads⟩ (p.reads p.ctrl.reads) := by
  have hread : Nread count p.ctrl.reads = .ok ⟨0, [], p.ctrl.reads⟩ := by
    rw [Nread, Int.toNat_of_nonpos hcount, gather_zero]
    rfl
  rw [readCtrl_eq, hread]
  rfl

def parsed (signed : Bool) (p : Process) : EStateM.Result Ending Process Unit :=
  if signed = true then .ok () p else .error (.stuck .blocked) p

theorem parsed_eq (signed : Bool) (f : Test → Test) :
    (do
      modifyTest f
      if signed = false then throw (.stuck .blocked) : Native Unit) p =
      parsed signed { p with test := f p.test } := by
  cases signed <;> rfl

/-- With a sign, a text of more than 127 characters stays in the connection. -/
theorem parse_parameters_spec (signed : Bool) {m : Memory} {rest : List UInt8}
    (h : other.Expressible) (hsteady : Steady readAgain p.ctrl.reads)
    (hpay : payload p.ctrl.reads = parametersMessage other ++ rest) :
    ∃ left, Steady readAgain left ∧
      if signed = false ∨ (parameters other).length < 128 then
        parse_parameters signed m p =
            parsed signed { p.reads left with test := p.test.hears other } ∧
          payload left = rest
      else
        parse_parameters signed m p = .ok () (p.reads left) ∧
          payload left = parameters other ++ rest := by
  have hlen := length_parameters_le h
  have hpos : ∀ k : ℕ, ¬ (k : ℤ) < 0 := fun k => by omega
  have hsplit : payload p.ctrl.reads = [UInt8.ofNat (parameters other).length] ++
      (parameters other ++ rest) := hpay
  obtain ⟨left₁, hread₁, hpay₁, hsteady₁⟩ := readCtrl_spec hsteady hsplit
  have hparse : parse_parameters signed m p = (do
      let r ← readCtrl (toChar signed (UInt8.ofNat (parameters other).length))
      if r.result < 0 then fail IERECVPARAMS
      let pstring := (overlay r.buf (List.replicate 256 0)).takeWhile (· ≠ 0)
      let params := strtok pstring
      modifyTest fun test =>
        (getopt parameterLetters (params.drop 1)).foldl Test.setParameter test
      if signed = false then throw (Ending.stuck .blocked)) (p.reads left₁) :=
    bind_ok hread₁
  split
  · rename_i hfits
    obtain ⟨left₂, hread₂, hpay₂, hsteady₂⟩ := readCtrl_spec (p := p.reads left₁) hsteady₁ hpay₁
    refine ⟨left₂, hsteady₂, ?_, hpay₂⟩
    have hstring : (overlay (parameters other) (List.replicate 256 0)).takeWhile (· ≠ 0) =
        parameters other := by
      have hne : ∀ c ∈ parameters other, decide (c ≠ 0) = true := by
        simpa using parameters_ne_zero
      obtain ⟨k, hk⟩ : ∃ k, 256 - (parameters other).length = k + 1 :=
        ⟨255 - (parameters other).length, by omega⟩
      rw [overlay, List.drop_replicate, hk, List.takeWhile_append_of_pos hne]
      simp [List.replicate_succ]
    rw [hparse, toChar_fits (by omega) hfits, bind_ok hread₂]
    simp only [if_neg (hpos _), hstring]
    exact (parsed_eq signed _).trans
      (congrArg (fun test => parsed signed { p.reads left₂ with test }) (parsed_parameters h))
  · rename_i hlong
    obtain ⟨hsigned, hge⟩ := not_or.mp hlong
    obtain rfl := Bool.eq_true_of_not_eq_false hsigned
    have hread₂ := readCtrl_none (p := p.reads left₁)
      (toChar_of_ge (Nat.le_of_not_lt hge) (by omega))
    refine ⟨left₁, hsteady₁, ?_, hpay₁⟩
    rw [hparse, bind_ok hread₂]
    rfl

/-- The server hears of the other test, and then returns or not, as a `char` has a sign or not. A
text that is longer than a `char` with a sign can say it does not hear, and takes it for what comes
next. -/
theorem parameters_exchanged (signed : Bool) {m : Memory} (h : c.test.Expressible)
    (hopen : c.ctrl.Open (parametersMessage c.test).length) :
    ∃ c', iperf_exchange_parameters c = .ok () c' ∧ c'.test = c.test ∧
      ∀ up rest, Steady readAgain up →
        payload up = c'.ctrl.sent.drop c.ctrl.sent.length ++ rest →
        ∃ s', parse_parameters signed m (s.reads up) = parsed signed s' ∧
          if signed = false ∨ (parameters c.test).length < 128 then
            s'.test = s.test.hears c.test ∧ payload s'.ctrl.reads = rest
          else
            s'.test = s.test ∧ payload s'.ctrl.reads = parameters c.test ++ rest := by
  obtain ⟨left, hsend, -⟩ := package_parameters_spec (n := 0) h hopen
  refine ⟨_, hsend, rfl, ?_⟩
  intro up rest hsteady hpay
  have hpay' : payload (s.reads up).ctrl.reads = parametersMessage c.test ++ rest := by
    rw [Process.sends, List.drop_left] at hpay
    exact hpay
  obtain ⟨left', -, hparse⟩ := parse_parameters_spec signed (m := m) h hsteady hpay'
  split at hparse
  · rename_i hfits
    refine ⟨_, hparse.1, ?_⟩
    rw [if_pos hfits]
    exact ⟨rfl, hparse.2⟩
  · rename_i hlong
    have hsigned := Bool.eq_true_of_not_eq_false (not_or.mp hlong).1
    refine ⟨(s.reads up).reads left', ?_, ?_⟩
    · rw [hparse.1, parsed, if_pos hsigned]
    · rw [if_neg hlong]
      exact ⟨rfl, hparse.2⟩

def defaultClient : Process where
  test := { role := .client, protocol := .Pudp, duration := 0 }
  ctrl := { reads := [], writes := List.replicate 200 (.took 1) }

theorem defaultClient_expressible : defaultClient.test.Expressible := by
  constructor <;> decide

/-- A server with the default settings keeps TCP and its own duration, whatever a `char` is. It goes
on only with a sign. -/
theorem parameters_exchanged_default :
    ∃ c', iperf_exchange_parameters defaultClient = .ok () c' ∧
      ∀ signed up, Steady readAgain up → payload up = c'.ctrl.sent →
        ∃ s', parse_parameters signed {} { test := { role := .server }, ctrl := ⟨up, [], []⟩ } =
            (if signed = true then .ok () s' else .error (.stuck .blocked) s') ∧
          s'.test.protocol = .Ptcp ∧ s'.test.duration = 5 ∧ s'.test.num_streams = 1 := by
  have hlen : (parametersMessage defaultClient.test).length ≤ 200 := by decide +kernel
  have hopen : defaultClient.ctrl.Open (parametersMessage defaultClient.test).length :=
    open_replicate (k := 200) (l := 0) rfl hlen
  obtain ⟨c', hc', -, -⟩ := parameters_exchanged true (m := {})
    (s := { test := { role := .server }, ctrl := ⟨[], [], []⟩ }) defaultClient_expressible hopen
  refine ⟨c', hc', ?_⟩
  intro signed up hsteady hpay
  obtain ⟨c'', hc'', -, hserver⟩ := parameters_exchanged signed (m := {})
    (s := { test := { role := .server }, ctrl := ⟨[], [], []⟩ }) defaultClient_expressible hopen
  obtain rfl : c' = c'' := by
    rw [hc'] at hc''
    cases hc''
    rfl
  obtain ⟨s', hs', htest⟩ := hserver up [] hsteady (hpay.trans (List.append_nil _).symm)
  rw [if_pos (Or.inr (by decide +kernel))] at htest
  refine ⟨s', hs', ?_⟩
  rw [htest.1]
  exact ⟨rfl, rfl, rfl⟩

end Exchange

end Iperf
