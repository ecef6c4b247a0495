import VideoEditorOffloading.TransitionSystems

/-! # The bandwidth test

The constructor of `BandwidthMeasurement` starts a thread that runs `ClientClass.run`, and calls
`TestServerBandwidth` itself. Both executions launch the native test, which keeps its result in the
global `gTest`, read it through the native getters and write the two fields. A launch answers true
for a failure; `run` takes true for a success and clears the fields when it gets false. -/
namespace BandwidthMeasurement

/-- What the getters read of a finished `iperf_test`. -/
structure Test where
  total_sent : ℤ
  total_recv : ℤ
  total_time : ℚ
  cpu_util : ℤ
  remote_cpu_util : ℤ
  time_pos : 0 < total_time

inductive Party where
  | background
  | constructor
  deriving DecidableEq, Repr

/-- Where an execution is, with the local variables of `TestBandwidth` it still needs. -/
inductive Pc where
  | start
  | launching
  | launched
  | uploaded (bytes_sent : ℤ)
  | downloaded (bytes_sent bytes_recv : ℤ)
  | timed (bytes_sent bytes_recv : ℤ) (time_taken : ℚ)
  | hostRead (bytes_sent bytes_recv : ℤ) (time_taken : ℚ)
  | serverRead (bytes_sent bytes_recv : ℤ) (time_taken : ℚ)
  | wroteUpload (bytes_recv : ℤ) (time_taken : ℚ)
  /-- `run` has got false. -/
  | wroteDownload
  | cleared
  | finished (status : Bool)
  deriving DecidableEq

structure Measurement where
  gTest : Option Test := none
  uploadBandwidth : ℚ := 0
  downloadBandwidth : ℚ := 0
  pc : Party → Pc := fun _ => .start
  /-- History: how a launch has ended. -/
  outcome : Party → Option (Option Test) := fun _ => none
  /-- History: what the first getter of an execution has found in `gTest`. -/
  found : Party → Option Test := fun _ => none

section Native

variable (gTest : Option Test)

def getUploadedBytes : ℤ := gTest.elim (-1) (·.total_sent)

def getDownloadedBytes : ℤ := gTest.elim (-1) (·.total_recv)

def getTimeTaken : ℚ := gTest.elim (-1) (·.total_time)

def getHostCpuUtilization : ℤ := gTest.elim (-1) (·.cpu_util)

def getServerCpuUtilization : ℤ := gTest.elim (-1) (·.remote_cpu_util)

end Native

/-- `bytes / ((1 << 20) * time_taken)`, as an exact number. -/
def bandwidth (bytes : ℤ) (time_taken : ℚ) : ℚ := bytes / ((1 <<< 20 : ℕ) * time_taken)

theorem bandwidth_eq (bytes : ℤ) (time_taken : ℚ) :
    bandwidth bytes time_taken = bytes / (2 ^ 20 * time_taken) := by
  rw [bandwidth, Nat.one_shiftLeft]
  push_cast
  rfl

/-- After a failed launch `TestBandwidth` returns true, and both executions are over. After the
writes it returns false, and `run` goes on. -/
def returned : Party → Bool → Pc
  | .background, false => .wroteDownload
  | _, status => .finished status

def Measurement.goto (x : Measurement) (p : Party) (pc : Pc) : Measurement :=
  { x with pc := Function.update x.pc p pc }

/-- The step an execution takes by itself. The two CPU getters are called, but nobody uses what they
return. -/
def go (x : Measurement) (p : Party) : Option Measurement :=
  match x.pc p with
  | .launched =>
    some { x.goto p (.uploaded (getUploadedBytes x.gTest)) with
      found := Function.update x.found p x.gTest }
  | .uploaded bytes_sent => some (x.goto p (.downloaded bytes_sent (getDownloadedBytes x.gTest)))
  | .downloaded bytes_sent bytes_recv =>
    some (x.goto p (.timed bytes_sent bytes_recv (getTimeTaken x.gTest)))
  | .timed bytes_sent bytes_recv time_taken =>
    let _ := getHostCpuUtilization x.gTest
    some (x.goto p (.hostRead bytes_sent bytes_recv time_taken))
  | .hostRead bytes_sent bytes_recv time_taken =>
    let _ := getServerCpuUtilization x.gTest
    some (x.goto p (.serverRead bytes_sent bytes_recv time_taken))
  | .serverRead bytes_sent bytes_recv time_taken =>
    some { x.goto p (.wroteUpload bytes_recv time_taken) with
      uploadBandwidth := bandwidth bytes_sent time_taken }
  | .wroteUpload bytes_recv time_taken =>
    some { x.goto p (returned p false) with downloadBandwidth := bandwidth bytes_recv time_taken }
  | .wroteDownload => some { x.goto p .cleared with uploadBandwidth := 0 }
  | .cleared => some { x.goto p (.finished false) with downloadBandwidth := 0 }
  | _ => none

inductive Event where
  /-- `launchBandwidthTest` frees the old test. -/
  | launch (p : Party)
  /-- `main_launch` returns a test or NULL. -/
  | land (p : Party) (test : Option Test)
  | go (p : Party)

def next (x : Measurement) : Event → Option Measurement
  | .launch p =>
    if x.pc p = .start then some { x.goto p .launching with gTest := none } else none
  | .land p test =>
    if x.pc p = .launching then
      some { x.goto p (if test.isSome then .launched else returned p true) with
        gTest := test
        outcome := Function.update x.outcome p (some test) }
    else none
  | .go p => go x p

abbrev Execution (ok : Measurement → Event → Prop) (x₀ x : Measurement) : Prop :=
  TransitionSystems.Execution next ok x₀ x

section Invariant

def WroteUpload (x : Measurement) : Prop :=
  (∃ r t, x.pc .constructor = .wroteUpload r t) ∨ x.pc .constructor = .finished false

def WroteDownload (x : Measurement) : Prop := x.pc .constructor = .finished false

/-- What must not go wrong: a successful launch in the background with a failed one of the
constructor; a getter of the constructor that finds NULL or another test than the one before; a
field that the constructor has written and `run` clears. -/
def Careful (x : Measurement) : Event → Prop
  | .launch _ => True
  | .land .background test => test.isSome → x.outcome .constructor ≠ some none
  | .land .constructor test =>
    test = none → ∀ t, x.outcome .background ≠ some (some t)
  | .go .constructor =>
    match x.pc .constructor with
    | .launched => x.gTest ≠ none
    | .uploaded _ => x.gTest = x.found .constructor
    | .downloaded _ _ => x.gTest = x.found .constructor
    | _ => True
  | .go .background =>
    match x.pc .background with
    | .wroteDownload => ¬ WroteUpload x
    | .cleared => ¬ WroteDownload x
    | _ => True

def Succeeded (x : Measurement) (t : Test) : Prop := ∃ p, x.outcome p = some (some t)

def Ended : Pc → Option (Option Test) → Prop
  | .start, o | .launching, o => o = none
  | .finished true, o => o = some none
  | _, o => ∃ t, o = some (some t)

def Carries : Pc → Option Test → Prop
  | .uploaded s, o => ∃ t, o = some t ∧ s = t.total_sent
  | .downloaded s r, o => ∃ t, o = some t ∧ s = t.total_sent ∧ r = t.total_recv
  | .timed s r τ, o | .hostRead s r τ, o | .serverRead s r τ, o =>
    ∃ t, o = some t ∧ s = t.total_sent ∧ r = t.total_recv ∧ τ = t.total_time
  | .wroteUpload r τ, o => ∃ t, o = some t ∧ r = t.total_recv ∧ τ = t.total_time
  | .finished false, o => ∃ t, o = some t
  | .wroteDownload, _ | .cleared, _ => False
  | _, _ => True

/-- The field is what the constructor has written, or still 0. -/
def Field (wrote : Prop) (value : ℚ) (bytes : Test → ℤ) (found : Option Test) : Prop :=
  (wrote → ∀ t, found = some t → value = bandwidth (bytes t) t.total_time) ∧ (¬ wrote → value = 0)

structure Sound (x : Measurement) : Prop where
  tested : ∀ t, x.gTest = some t → Succeeded x t
  ended : ∀ p, Ended (x.pc p) (x.outcome p)
  carries : Carries (x.pc .constructor) (x.found .constructor)
  found : ∀ t, x.found .constructor = some t → Succeeded x t
  upload : (∀ r t, x.pc .background ≠ .wroteUpload r t) → x.pc .background ≠ .wroteDownload →
    Field (WroteUpload x) x.uploadBandwidth Test.total_sent (x.found .constructor)
  download : x.pc .background ≠ .wroteDownload → x.pc .background ≠ .cleared →
    Field (WroteDownload x) x.downloadBandwidth Test.total_recv (x.found .constructor)
  together : x.outcome .constructor = some none → ∀ t, x.outcome .background ≠ some (some t)

end Invariant

section Steps

variable {x x' : Measurement} {p : Party}

@[simp] theorem goto_self (pc : Pc) : (x.goto p pc).pc p = pc := Function.update_self ..

@[simp] theorem goto_background (pc : Pc) :
    (x.goto .background pc).pc .constructor = x.pc .constructor := rfl

@[simp] theorem goto_constructor (pc : Pc) :
    (x.goto .constructor pc).pc .background = x.pc .background := rfl

structure Moves (x x' : Measurement) (p : Party) : Prop where
  pc : ∀ q, q ≠ p → x'.pc q = x.pc q
  outcome : ∀ q, q ≠ p → x'.outcome q = x.outcome q
  found : ∀ q, q ≠ p → x'.found q = x.found q
  kept : ∀ r, x.outcome p = some r → x'.outcome p = some r

theorem Moves.succeeded (hm : Moves x x' p) {t : Test} (h : Succeeded x t) : Succeeded x' t := by
  obtain ⟨q, hq⟩ := h
  refine ⟨q, ?_⟩
  by_cases hqp : q = p
  · subst hqp
    exact hm.kept _ hq
  · rw [hm.outcome q hqp]
    exact hq

theorem Moves.ended (hm : Moves x x' p) (hx : Sound x) (h : Ended (x'.pc p) (x'.outcome p)) :
    ∀ q, Ended (x'.pc q) (x'.outcome q) := by
  intro q
  by_cases hqp : q = p
  · subst hqp
    exact h
  · rw [hm.pc q hqp, hm.outcome q hqp]
    exact hx.ended q

theorem Field.of_not_wrote {w w' : Prop} {v : ℚ} {bytes : Test → ℤ} {f : Option Test}
    (h : Field w v bytes f) (hw : ¬ w) (hw' : ¬ w') (f' : Option Test) : Field w' v bytes f' :=
  ⟨fun h' => absurd h' hw', fun _ => h.2 hw⟩

/-- Only a launch changes the test and its outcome. -/
theorem moves_go (h : go x p = some x') :
    Moves x x' p ∧ x'.gTest = x.gTest ∧ x'.outcome = x.outcome := by
  rw [go] at h
  split at h
  case h_1 =>
    obtain rfl := Option.some.inj h
    exact ⟨⟨fun _ h => Function.update_of_ne h .., fun _ _ => rfl,
      fun _ h => Function.update_of_ne h .., fun _ h => h⟩, rfl, rfl⟩
  case h_10 => cases h
  all_goals
    obtain rfl := Option.some.inj h
    exact ⟨⟨fun _ h => Function.update_of_ne h .., fun _ _ => rfl, fun _ _ => rfl,
      fun _ h => h⟩, rfl, rfl⟩

theorem sound_background (hx : Sound x) (hm : Moves x x' .background)
    (htested : ∀ t, x'.gTest = some t → Succeeded x' t)
    (hended : Ended (x'.pc .background) (x'.outcome .background))
    (hupload : (∀ r t, x'.pc .background ≠ .wroteUpload r t) →
      x'.pc .background ≠ .wroteDownload →
      Field (WroteUpload x) x'.uploadBandwidth Test.total_sent (x.found .constructor))
    (hdownload : x'.pc .background ≠ .wroteDownload → x'.pc .background ≠ .cleared →
      Field (WroteDownload x) x'.downloadBandwidth Test.total_recv (x.found .constructor))
    (htogether : x.outcome .constructor = some none →
      ∀ t, x'.outcome .background ≠ some (some t)) : Sound x' := by
  have hpc : x'.pc .constructor = x.pc .constructor := hm.pc _ (by decide)
  have hfound : x'.found .constructor = x.found .constructor := hm.found _ (by decide)
  have hwu : WroteUpload x' ↔ WroteUpload x := by rw [WroteUpload, WroteUpload, hpc]
  have hwd : WroteDownload x' ↔ WroteDownload x := by rw [WroteDownload, WroteDownload, hpc]
  constructor
  · exact htested
  · exact hm.ended hx hended
  · rw [hpc, hfound]
    exact hx.carries
  · intro t ht
    exact hm.succeeded (hx.found t (hfound ▸ ht))
  · rw [hwu, hfound]
    exact hupload
  · rw [hwd, hfound]
    exact hdownload
  · rw [hm.outcome _ (by decide)]
    exact htogether

theorem sound_constructor (hx : Sound x) (hm : Moves x x' .constructor)
    (htested : ∀ t, x'.gTest = some t → Succeeded x' t)
    (hended : Ended (x'.pc .constructor) (x'.outcome .constructor))
    (hcarries : Carries (x'.pc .constructor) (x'.found .constructor))
    (hfound : ∀ t, x'.found .constructor = some t → Succeeded x' t)
    (hupload : Field (WroteUpload x) x.uploadBandwidth Test.total_sent (x.found .constructor) →
      Field (WroteUpload x') x'.uploadBandwidth Test.total_sent (x'.found .constructor))
    (hdownload : Field (WroteDownload x) x.downloadBandwidth Test.total_recv
        (x.found .constructor) →
      Field (WroteDownload x') x'.downloadBandwidth Test.total_recv (x'.found .constructor))
    (htogether : x'.outcome .constructor = some none →
      ∀ t, x.outcome .background ≠ some (some t)) : Sound x' := by
  have hpc : x'.pc .background = x.pc .background := hm.pc _ (by decide)
  constructor
  · exact htested
  · exact hm.ended hx hended
  · exact hcarries
  · exact hfound
  · rw [hpc]
    exact fun h1 h2 => hupload (hx.upload h1 h2)
  · rw [hpc]
    exact fun h1 h2 => hdownload (hx.download h1 h2)
  · rw [hm.outcome .background (by decide)]
    exact htogether

theorem wroteUpload_of_pc {pc : Pc} (hpc : x.pc .constructor = pc)
    (h1 : ∀ r t, pc ≠ .wroteUpload r t) (h2 : pc ≠ .finished false) : ¬ WroteUpload x := by
  rintro (⟨r, t, h⟩ | h)
  · exact h1 r t (hpc.symm.trans h)
  · exact h2 (hpc.symm.trans h)

theorem sound_background_silent (hx : Sound x) (hm : Moves x x' .background)
    (hu : x'.uploadBandwidth = x.uploadBandwidth) (hd : x'.downloadBandwidth = x.downloadBandwidth)
    (hwrote : ∀ r t, x.pc .background ≠ .wroteUpload r t)
    (hdone : x.pc .background ≠ .wroteDownload) (hcleared : x.pc .background ≠ .cleared)
    (htested : ∀ t, x'.gTest = some t → Succeeded x' t)
    (hended : Ended (x'.pc .background) (x'.outcome .background))
    (htogether : x.outcome .constructor = some none →
      ∀ t, x'.outcome .background ≠ some (some t)) : Sound x' := by
  refine sound_background hx hm htested hended ?_ ?_ htogether
  · rw [hu]
    exact fun _ _ => hx.upload hwrote hdone
  · rw [hd]
    exact fun _ _ => hx.download hdone hcleared

theorem sound_constructor_silent (hx : Sound x) (hm : Moves x x' .constructor)
    (hu : x'.uploadBandwidth = x.uploadBandwidth) (hd : x'.downloadBandwidth = x.downloadBandwidth)
    (hbefore : ¬ WroteUpload x) (hafter : ¬ WroteUpload x')
    (htested : ∀ t, x'.gTest = some t → Succeeded x' t)
    (hended : Ended (x'.pc .constructor) (x'.outcome .constructor))
    (hcarries : Carries (x'.pc .constructor) (x'.found .constructor))
    (hfound : ∀ t, x'.found .constructor = some t → Succeeded x' t)
    (htogether : x'.outcome .constructor = some none →
      ∀ t, x.outcome .background ≠ some (some t)) : Sound x' := by
  refine sound_constructor hx hm htested hended hcarries hfound ?_ ?_ htogether
  · rw [hu]
    exact fun hfield => hfield.of_not_wrote hbefore hafter _
  · rw [hd]
    exact fun hfield =>
      hfield.of_not_wrote (fun hw => hbefore (Or.inr hw)) (fun hw => hafter (Or.inr hw)) _

theorem sound_launch (hx : Sound x) (h : next x (.launch p) = some x') : Sound x' := by
  simp only [next] at h
  split at h
  swap
  · cases h
  rename_i hpc
  obtain rfl := Option.some.inj h
  have hnone : Ended .launching (x.outcome p) := by
    have hended := hx.ended p
    rwa [hpc] at hended
  have hm : Moves x { x.goto p .launching with gTest := none } p :=
    ⟨fun _ h => Function.update_of_ne h .., fun _ _ => rfl, fun _ _ => rfl, fun _ h => h⟩
  have htested : ∀ t, (none : Option Test) = some t →
      Succeeded { x.goto p .launching with gTest := none } t := by
    intro t ht
    cases ht
  cases p with
  | background =>
    exact sound_background_silent hx hm rfl rfl (by simp [hpc]) (by simp [hpc]) (by simp [hpc])
      htested hnone hx.together
  | constructor =>
    have hbefore : ¬ WroteUpload x := wroteUpload_of_pc hpc (by simp) (by simp)
    refine sound_constructor_silent hx hm rfl rfl hbefore
      (wroteUpload_of_pc rfl (by simp) (by simp)) htested hnone trivial ?_ hx.together
    intro t ht
    exact hm.succeeded (hx.found t ht)

theorem sound_land {test : Option Test} (hx : Sound x) (hok : Careful x (.land p test))
    (h : next x (.land p test) = some x') : Sound x' := by
  simp only [next] at h
  split at h
  swap
  · cases h
  rename_i hpc
  have hnone : x.outcome p = none := by
    have hended := hx.ended p
    rwa [hpc] at hended
  have hm : Moves x x' p := by
    obtain rfl := Option.some.inj h
    refine ⟨fun _ h => Function.update_of_ne h .., fun _ h => Function.update_of_ne h ..,
      fun _ _ => rfl, fun r hr => ?_⟩
    rw [hnone] at hr
    cases hr
  have hu : x'.uploadBandwidth = x.uploadBandwidth := by
    obtain rfl := Option.some.inj h
    rfl
  have hd : x'.downloadBandwidth = x.downloadBandwidth := by
    obtain rfl := Option.some.inj h
    rfl
  have houtcome : x'.outcome p = some test := by
    obtain rfl := Option.some.inj h
    exact Function.update_self ..
  have htested : ∀ t, x'.gTest = some t → Succeeded x' t := by
    intro t ht
    refine ⟨p, houtcome.trans (congrArg some ?_)⟩
    obtain rfl := Option.some.inj h
    exact ht
  have hpc' : x'.pc p = if test.isSome then .launched else returned p true := by
    obtain rfl := Option.some.inj h
    exact Function.update_self ..
  have hended : Ended (x'.pc p) (x'.outcome p) := by
    rw [hpc', houtcome]
    cases test with
    | none => cases p <;> rfl
    | some t => exact ⟨t, rfl⟩
  cases p with
  | background =>
    refine sound_background_silent hx hm hu hd (by simp [hpc]) (by simp [hpc]) (by simp [hpc])
      htested hended ?_
    intro hfailed t ht
    rw [houtcome] at ht
    obtain rfl := Option.some.inj ht
    exact hok rfl hfailed
  | constructor =>
    have hbefore : ¬ WroteUpload x := wroteUpload_of_pc hpc (by simp) (by simp)
    have hafter : ¬ WroteUpload x' := by
      refine wroteUpload_of_pc hpc' ?_ ?_ <;> cases test <;> simp [returned]
    refine sound_constructor_silent hx hm hu hd hbefore hafter htested hended ?_ ?_ ?_
    · rw [hpc']
      cases test <;> trivial
    · intro t ht
      obtain rfl := Option.some.inj h
      exact hm.succeeded (hx.found t ht)
    · intro hfailed
      exact hok (Option.some.inj (houtcome.symm.trans hfailed))

theorem sound_go_background (hx : Sound x) (hok : Careful x (.go .background))
    (h : next x (.go .background) = some x') : Sound x' := by
  obtain ⟨hm, hg, ho⟩ := moves_go h
  have hended := hx.ended .background
  have htested : ∀ t, x'.gTest = some t → Succeeded x' t := by
    rw [hg]
    exact fun t ht => hm.succeeded (hx.tested t ht)
  cases hpc : x.pc .background <;> simp only [next, go, hpc, reduceCtorEq] at h <;>
    obtain rfl := Option.some.inj h <;> rw [hpc] at hended <;> simp only [Careful, hpc] at hok
  case serverRead s r t =>
    refine sound_background hx hm htested hended ?_ ?_ hx.together
    · intro hne _
      exact absurd rfl (hne r t)
    · intro _ _
      exact hx.download (by simp [hpc]) (by simp [hpc])
  case wroteUpload r t =>
    refine sound_background hx hm htested hended ?_ ?_ hx.together
    · intro _ hne
      exact absurd rfl hne
    · intro hne _
      exact absurd rfl hne
  case wroteDownload =>
    refine sound_background hx hm htested hended ?_ ?_ hx.together
    · intro _ _
      exact ⟨fun hw => absurd hw hok, fun _ => rfl⟩
    · intro _ hne
      exact absurd rfl hne
  case cleared =>
    refine sound_background hx hm htested hended ?_ ?_ hx.together
    · intro _ _
      exact hx.upload (by simp [hpc]) (by simp [hpc])
    · intro _ _
      exact ⟨fun hw => absurd hw hok, fun _ => rfl⟩
  all_goals
    exact sound_background_silent hx hm rfl rfl (by simp [hpc]) (by simp [hpc]) (by simp [hpc])
      htested hended hx.together

theorem sound_go_constructor (hx : Sound x) (hok : Careful x (.go .constructor))
    (h : next x (.go .constructor) = some x') : Sound x' := by
  obtain ⟨hm, hg, ho⟩ := moves_go h
  have hended := hx.ended .constructor
  have hcarries := hx.carries
  have htested : ∀ t, x'.gTest = some t → Succeeded x' t := by
    rw [hg]
    exact fun t ht => hm.succeeded (hx.tested t ht)
  have hfound : x'.found .constructor = x.found .constructor →
      ∀ t, x'.found .constructor = some t → Succeeded x' t := by
    intro heq t ht
    exact hm.succeeded (hx.found t (heq ▸ ht))
  cases hpc : x.pc .constructor <;> simp only [next, go, hpc, reduceCtorEq] at h <;>
    obtain rfl := Option.some.inj h <;> rw [hpc] at hended hcarries <;>
    simp only [Careful, hpc] at hok
  case launched =>
    obtain ⟨t, ht⟩ := Option.ne_none_iff_exists'.mp hok
    refine sound_constructor_silent hx hm rfl rfl (wroteUpload_of_pc hpc (by simp) (by simp))
      (wroteUpload_of_pc rfl (by simp) (by simp)) htested hended ?_ ?_ hx.together
    · refine ⟨t, (Function.update_self Party.constructor x.gTest x.found).trans ht, ?_⟩
      rw [ht, getUploadedBytes]
      rfl
    · intro t' ht'
      exact htested t' ((Function.update_self Party.constructor x.gTest x.found).symm.trans ht')
  case uploaded s =>
    obtain ⟨t, ht, rfl⟩ := hcarries
    refine sound_constructor_silent hx hm rfl rfl (wroteUpload_of_pc hpc (by simp) (by simp))
      (wroteUpload_of_pc rfl (by simp) (by simp)) htested hended ?_ (hfound rfl) hx.together
    refine ⟨t, ht, rfl, ?_⟩
    rw [hok, ht, getDownloadedBytes]
    rfl
  case downloaded s r =>
    obtain ⟨t, ht, rfl, rfl⟩ := hcarries
    refine sound_constructor_silent hx hm rfl rfl (wroteUpload_of_pc hpc (by simp) (by simp))
      (wroteUpload_of_pc rfl (by simp) (by simp)) htested hended ?_ (hfound rfl) hx.together
    refine ⟨t, ht, rfl, rfl, ?_⟩
    rw [hok, ht, getTimeTaken]
    rfl
  case serverRead s r τ =>
    obtain ⟨t, ht, rfl, rfl, rfl⟩ := hcarries
    refine sound_constructor hx hm htested hended ⟨t, ht, rfl, rfl⟩ (hfound rfl) ?_ ?_ hx.together
    · intro _
      refine ⟨fun _ t' ht' => ?_, fun hn => absurd (Or.inl ⟨_, _, rfl⟩) hn⟩
      obtain rfl := Option.some.inj (ht.symm.trans ht')
      rfl
    · intro hfield
      exact hfield.of_not_wrote (by simp [WroteDownload, hpc]) (by simp [WroteDownload]) _
  case wroteUpload r τ =>
    obtain ⟨t, ht, rfl, rfl⟩ := hcarries
    refine sound_constructor hx hm htested hended ⟨t, ht⟩ (hfound rfl) ?_ ?_ hx.together
    · intro hfield
      exact ⟨fun _ => hfield.1 (Or.inl ⟨_, _, hpc⟩), fun hn => absurd (Or.inr rfl) hn⟩
    · intro _
      refine ⟨fun _ t' ht' => ?_, fun hn => absurd rfl hn⟩
      obtain rfl := Option.some.inj (ht.symm.trans ht')
      rfl
  case wroteDownload => exact absurd hcarries id
  case cleared => exact absurd hcarries id
  all_goals
    exact sound_constructor_silent hx hm rfl rfl (wroteUpload_of_pc hpc (by simp) (by simp))
      (wroteUpload_of_pc rfl (by simp) (by simp)) htested hended hcarries (hfound rfl) hx.together

theorem sound_next {e : Event} (hx : Sound x) (hok : Careful x e) (h : next x e = some x') :
    Sound x' := by
  cases e with
  | launch p => exact sound_launch hx h
  | land p test => exact sound_land hx hok h
  | go p =>
    cases p with
    | background => exact sound_go_background hx hok h
    | constructor => exact sound_go_constructor hx hok h

end Steps

section Results

def Done (x : Measurement) : Prop := ∀ p, ∃ status, x.pc p = .finished status

/-- The fields are the results of one successful launch, or 0 if there is none. -/
structure Right (x : Measurement) : Prop where
  some_success : (∃ t, Succeeded x t) → ∃ t, Succeeded x t ∧
    x.uploadBandwidth = t.total_sent / (2 ^ 20 * t.total_time) ∧
    x.downloadBandwidth = t.total_recv / (2 ^ 20 * t.total_time)
  no_success : (∀ p, x.outcome p = some none) → x.uploadBandwidth = 0 ∧ x.downloadBandwidth = 0

theorem initial_sound : Sound {} := by
  constructor
  · intro t ht
    cases ht
  · intro p
    rfl
  · trivial
  · intro t ht
    cases ht
  · intro _ _
    exact ⟨fun hw => absurd hw (by simp [WroteUpload]), fun _ => rfl⟩
  · intro _ _
    exact ⟨fun hw => absurd hw (by simp [WroteDownload]), fun _ => rfl⟩
  · intro h
    cases h

theorem Sound.right {x : Measurement} (hx : Sound x) (hdone : Done x) : Right x := by
  obtain ⟨status, hpc⟩ := hdone .constructor
  obtain ⟨status', hpc'⟩ := hdone .background
  have hu := hx.upload (by simp [hpc']) (by simp [hpc'])
  have hd := hx.download (by simp [hpc']) (by simp [hpc'])
  have hended := hx.ended .constructor
  have hended' := hx.ended .background
  have hcarries := hx.carries
  rw [hpc] at hended hcarries
  rw [hpc'] at hended'
  cases status with
  | true =>
    have hfailed : x.outcome .constructor = some none := hended
    have hzero : x.uploadBandwidth = 0 ∧ x.downloadBandwidth = 0 :=
      ⟨hu.2 (wroteUpload_of_pc hpc (by simp) (by simp)), hd.2 (by simp [WroteDownload, hpc])⟩
    refine ⟨?_, fun _ => hzero⟩
    rintro ⟨t, p, hp⟩
    cases p with
    | background => exact absurd hp (hx.together hfailed t)
    | constructor =>
      rw [hfailed] at hp
      cases hp
  | false =>
    obtain ⟨t, ht⟩ := hcarries
    obtain ⟨t', ht'⟩ := hended
    constructor
    · intro _
      refine ⟨t, hx.found t ht, ?_, ?_⟩
      · rw [hu.1 (Or.inr hpc) t ht, bandwidth_eq]
      · rw [hd.1 hpc t ht, bandwidth_eq]
    · intro hnone
      rw [hnone .constructor] at ht'
      cases ht'

/-- In every run without the three mishaps the results are those of a successful test. -/
theorem bandwidth_right_of_careful {x : Measurement} (hx : Execution Careful {} x)
    (hdone : Done x) : Right x :=
  (hx.invariant initial_sound fun _ _ _ hok hnext hs => sound_next hs hok hnext).right hdone

end Results

section Samples

def sampleTest : Test := ⟨2097152, 1048576, 1, 0, 0, by norm_num⟩

def wholeRun (p : Party) : List Event :=
  [.launch p, .land p (some sampleTest), .go p, .go p, .go p, .go p, .go p, .go p, .go p]

/-- The background thread goes last: both launches have succeeded and the fields are cleared. -/
theorem background_last_clears : ∃ x, Execution (fun _ _ => True) {} x ∧ Done x ∧
    Succeeded x sampleTest ∧ x.uploadBandwidth = 0 ∧ x.downloadBandwidth = 0 ∧ ¬ Right x := by
  have hrun : ∃ x, TransitionSystems.runEvents next {}
      (wholeRun .constructor ++ wholeRun .background ++ [.go .background, .go .background]) =
        some x ∧ x.pc .constructor = .finished false ∧ x.pc .background = .finished false ∧
      x.outcome .constructor = some (some sampleTest) ∧
      x.outcome .background = some (some sampleTest) ∧
      x.uploadBandwidth = 0 ∧ x.downloadBandwidth = 0 := ⟨_, rfl, rfl, rfl, rfl, rfl, rfl, rfl⟩
  obtain ⟨x, h, hc, hb, hoc, hob, hu, hd⟩ := hrun
  have hdone : Done x := by
    intro p
    cases p with
    | background => exact ⟨_, hb⟩
    | constructor => exact ⟨_, hc⟩
  refine ⟨x, .append .refl (by simp) h, hdone, ⟨_, hoc⟩, hu, hd, ?_⟩
  intro hright
  obtain ⟨t, ⟨p, hp⟩, hup, -⟩ := hright.some_success ⟨_, _, hoc⟩
  obtain rfl : t = sampleTest := by
    cases p with
    | background => exact Option.some.inj (Option.some.inj (hp.symm.trans hob))
    | constructor => exact Option.some.inj (Option.some.inj (hp.symm.trans hoc))
  rw [hu, sampleTest] at hup
  norm_num at hup

/-- The background launch fails and the constructor reads its own test. -/
theorem background_failed_right : ∃ x, Done x ∧ Succeeded x sampleTest ∧ Right x := by
  have hrun : ∃ x, Execution Careful {} x ∧ x.pc .background = .finished true ∧
      x.pc .constructor = .finished false ∧
      x.outcome .constructor = some (some sampleTest) := by
    refine ⟨_, .step (e := .go .constructor) (.step (e := .go .constructor)
      (.step (e := .go .constructor) (.step (e := .go .constructor) (.step (e := .go .constructor)
        (.step (e := .go .constructor) (.step (e := .go .constructor)
          (.step (e := .land .constructor (some sampleTest)) (.step (e := .launch .constructor)
            (.step (e := .land .background none) (.step (e := .launch .background) .refl
              ?_ rfl) ?_ rfl) ?_ rfl) ?_ rfl) ?_ rfl) ?_ rfl) ?_ rfl) ?_ rfl) ?_ rfl) ?_ rfl)
      ?_ rfl, rfl, rfl, rfl⟩
    all_goals first
      | trivial
      | rfl
      | (intro h; cases h)
  obtain ⟨x, hx, hb, hc, hoc⟩ := hrun
  have hdone : Done x := by
    intro p
    cases p with
    | background => exact ⟨_, hb⟩
    | constructor => exact ⟨_, hc⟩
  exact ⟨x, hdone, ⟨_, hoc⟩, bandwidth_right_of_careful hx hdone⟩

end Samples

end BandwidthMeasurement
