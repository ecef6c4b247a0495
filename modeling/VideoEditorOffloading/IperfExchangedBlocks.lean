import VideoEditorOffloading.IperfTestBlocks

/-! # The exchange of the results in memory

What the client hears from the server is written into the blocks of its streams. Whatever text it
reads, the blocks follow the test without addresses. -/
namespace IperfMemory

open Iperf OwnedCells

section Exchanges

variable (A : Allocator Block) {x : Placement} {t : Test} {test : ℕ} {d : Cells Block}
variable {before found rest : List PlacedStream} {y : PlacedStream} {sid : ℤ}

theorem block_mem (before rest : List PlacedStream) (y : PlacedStream) (d : Cells Block) :
    (y.sp, Block.stream (y.block (streamList.first rest 0))) ∈
      streamList.segment (before ++ y :: rest) 0 + d := by
  rw [streamList.segment_append, streamList.segment_cons]
  simp [streamList]

theorem exists_found (items : List PlacedStream) (sid : ℤ) :
    ∃ before found, items = before ++ found ∧ (∀ z ∈ before, z.stream.id ≠ sid) ∧
      ∀ y ∈ found.head?, y.stream.id = sid := by
  induction items with
  | nil => exact ⟨[], [], rfl, List.forall_mem_nil _, fun _ hy => by cases hy⟩
  | cons x items ih =>
    by_cases hx : x.stream.id = sid
    · refine ⟨[], x :: items, rfl, List.forall_mem_nil _, ?_⟩
      intro y hy
      obtain rfl := Option.mem_some_iff.mp hy
      exact hx
    · obtain ⟨before, found, rfl, hbefore, hfound⟩ := ih
      exact ⟨x :: before, found, rfl, List.forall_mem_cons.mpr ⟨hx, hbefore⟩, hfound⟩

/-- The loop stops at the first stream with the number. -/
theorem spec_findStream (hbefore : ∀ z ∈ before, z.stream.id ≠ sid)
    (hfound : ∀ y ∈ found.head?, y.stream.id = sid) :
    Spec (streamList.segment (before ++ found) 0 + d)
      (findStream (streamList.first (before ++ found) 0) sid) fun sp c' =>
      sp = streamList.first found 0 ∧ c' = streamList.segment (before ++ found) 0 + d := by
  have hcard : before.length ≤
      Multiset.card (streamList.segment (before ++ found) 0 + d) := by
    have hle := streamList.length_le_card (before ++ found) 0
    rw [List.length_append] at hle
    rw [Multiset.card_add]
    omega
  apply spec_loopBlocks (fun others sp c => ∃ passed, passed ++ others = before ∧
    sp = streamList.first (others ++ found) 0 ∧
    c = streamList.segment (before ++ found) 0 + d)
    (fun sp c => sp = streamList.first found 0 ∧ c = streamList.segment (before ++ found) 0 + d)
    ?_ ?_ before ⟨[], rfl, rfl, rfl⟩ hcard
  · rintro y others sp c ⟨passed, hpassed, rfl, rfl⟩
    have hother : (y.block (streamList.first (others ++ found) 0)).id ≠ sid := by
      apply hbefore
      rw [← hpassed]
      exact List.mem_append_right _ List.mem_cons_self
    have hsplit : before ++ found = passed ++ y :: (others ++ found) := by
      rw [← hpassed, List.append_assoc, List.cons_append]
    have hblock := block_mem passed (others ++ found) y d
    rw [← hsplit] at hblock
    apply spec_of_owned
    intro _ hnull
    have hne : streamList.first (y :: others ++ found) 0 ≠ 0 := ne_zero_of_mem hnull hblock
    rw [if_neg hne]
    apply spec_loadAs_bind (K := streamKind) hblock
    rw [if_neg hother]
    exact spec_pure ⟨_, rfl, passed ++ [y], by rw [← hpassed]; simp, rfl, rfl⟩
  · rintro sp c ⟨passed, -, rfl, rfl⟩
    rw [List.nil_append]
    cases hcase : found with
    | nil =>
      rw [streamList.first_nil, if_pos rfl]
      exact spec_pure ⟨rfl, rfl, rfl⟩
    | cons y rest =>
      have hid : (y.block (streamList.first rest 0)).id = sid := hfound y (by rw [hcase]; rfl)
      have hblock := block_mem before rest y d
      apply spec_of_owned
      intro _ hnull
      have hne : streamList.first (y :: rest) 0 ≠ 0 := ne_zero_of_mem hnull hblock
      rw [if_neg hne]
      apply spec_loadAs_bind (K := streamKind) hblock
      rw [if_pos hid]
      exact spec_pure ⟨rfl, rfl, rfl⟩

theorem spec_setStream (direction : Direction) (v : Fields) {y : PlacedStream} {tail : ℕ} :
    Spec (streamList.cells y tail) (setStream direction v y.sp) fun _ =>
      Changed y (y.stream.setResults direction v) tail := by
  apply spec_loadAs_bind (K := streamKind) (a := y.block tail) (by simp [streamList])
  cases direction with
  | sends => exact spec_updateResult (fun _ _ => rfl) rfl rfl rfl rfl rfl
  | receives => exact spec_updateResult (fun _ _ => rfl) rfl rfl rfl rfl rfl

theorem setResults_none (direction : Direction) (v : Fields) {streams : List Stream}
    (h : ∀ sp ∈ streams, sp.id ≠ v.sid) : setResults direction v streams = none := by
  induction streams with
  | nil => rfl
  | cons sp streams ih =>
    rw [setResults, if_neg (h sp List.mem_cons_self),
      ih fun sp' hsp' => h sp' (List.mem_cons_of_mem sp hsp')]
    rfl

/-- One stream of a test has other numbers. -/
theorem Stores.set (h : Stores x t) (hx : x.streams = before ++ y :: rest) {y' : PlacedStream}
    (hsettings : y'.settings = y.settings)
    (hbuffer : y'.stream.buffer.length = y.stream.buffer.length) :
    Stores { x with streams := before ++ y' :: rest }
      { t with streams := (before ++ y' :: rest).map (·.stream) } := by
  have hmem : ∀ z ∈ before ++ rest, z ∈ x.streams := by
    intro z hz
    rw [hx]
    simp only [List.mem_append, List.mem_cons] at hz ⊢
    tauto
  have hy : y ∈ x.streams := by
    rw [hx]
    exact List.mem_append_right _ List.mem_cons_self
  have hfull : ∀ z ∈ x.streams, z.stream.buffer.length = t.settings.blksize := by
    intro z hz
    apply h.full
    rw [← h.streams]
    exact List.mem_map_of_mem hz
  have hall : ∀ z ∈ before ++ y' :: rest, z = y' ∨ z ∈ x.streams := by
    intro z hz
    simp only [List.mem_append, List.mem_cons] at hz
    rcases hz with hz | rfl | hz
    · exact .inr (hmem z (List.mem_append_left _ hz))
    · exact .inl rfl
    · exact .inr (hmem z (List.mem_append_right _ hz))
  refine ⟨h.named, h.unbound, rfl, ?_, ?_, h.timer, h.stats_timer, h.reporter_timer⟩
  · intro z hz
    rcases hall z hz with rfl | hz
    · exact hsettings.trans (h.settings y hy)
    · exact h.settings z hz
  · intro sp hsp
    obtain ⟨z, hz, rfl⟩ := List.mem_map.mp hsp
    rcases hall z hz with rfl | hz
    · exact hbuffer.trans (hfull y hy)
    · exact hfull z hz

theorem parseLines_rest {direction : Direction} {v : Fields} {cs : List UInt8}
    {streams streams' : List Stream} {result : List Stream × Bool} (hcs : cs ≠ [])
    (hset : setResults direction (sscanf resultFormat v cs) streams = some streams')
    (h : Iperf.parseLines direction v cs streams = .ok result) :
    ∃ cs', nextLine cs = some cs' ∧
      Iperf.parseLines direction (sscanf resultFormat v cs) cs' streams' = .ok result := by
  rw [Iperf.parseLines, if_neg hcs] at h
  simp only [hset] at h
  split at h
  · cases h
  · next cs' hnext => exact ⟨cs', hnext, h⟩

/-- Line by line the blocks of the streams hear what the streams hear. -/
theorem spec_parseLines {v : Fields} {cs : List UInt8} {streams : List Stream} {known : Bool}
    (h : Stores x t)
    (hlines : Iperf.parseLines t.direction v cs t.streams = .ok (streams, known)) :
    Spec (x.cells test t + d) (parseLines test v cs) fun b c' => b = known ∧
      ∃ e, Holds test { t with streams } e ∧ c' = e + d := by
  induction hn : cs.length using Nat.strong_induction_on generalizing x t v cs with
  | _ n ih =>
    rw [parseLines]
    by_cases hcs : cs = []
    · rw [Iperf.parseLines, if_pos hcs] at hlines
      rw [if_pos hcs]
      cases hlines
      exact spec_pure ⟨rfl, _, ⟨x, h, rfl⟩, rfl⟩
    · rw [if_neg hcs]
      obtain ⟨before, found, hx, hbefore, hfound⟩ :=
        exists_found x.streams (sscanf resultFormat v cs).sid
      apply spec_loadAs_bind (K := testKind) (a := x.block t) (by simp [Placement.cells])
      have hcells : x.cells test t + d = streamList.segment (before ++ found) 0 +
          ({(test, .test (x.block t))} + x.parts t + d) := by
        rw [Placement.cells, hx, add_assoc]
      have hfirst : (x.block t).streams = streamList.first (before ++ found) 0 := by
        rw [Placement.block, hx]
      rw [hcells, hfirst, x.direction]
      apply (spec_findStream hbefore hfound).bind
      rintro sp c ⟨rfl, rfl⟩
      cases hcase : found with
      | nil =>
        rw [streamList.first_nil, if_pos rfl]
        have hnone : setResults t.direction (sscanf resultFormat v cs) t.streams = none := by
          apply setResults_none
          rw [← h.streams, hx, hcase, List.append_nil]
          exact List.forall_mem_map.mpr hbefore
        rw [Iperf.parseLines, if_neg hcs] at hlines
        simp only [hnone] at hlines
        cases hlines
        refine spec_pure ⟨rfl, _, ⟨x, h, rfl⟩, ?_⟩
        rw [hcells, hcase]
      | cons y rest =>
        subst hcase
        have hid : y.stream.id = (sscanf resultFormat v cs).sid := hfound y rfl
        have hset : setResults t.direction (sscanf resultFormat v cs) t.streams =
            some (before.map (·.stream) ++
              y.stream.setResults t.direction (sscanf resultFormat v cs) ::
                rest.map (·.stream)) := by
          rw [← h.streams, hx, List.map_append, List.map_cons]
          exact setResults_append _ _ _ (List.forall_mem_map.mpr hbefore) hid
        obtain ⟨cs', hnext, hrest⟩ := parseLines_rest hcs hset hlines
        apply spec_of_owned
        intro _ hnull
        have hne : y.sp ≠ 0 := ne_zero_of_mem hnull (block_mem before rest y _)
        rw [streamList.first_cons]
        change Spec _ (if y.sp = 0 then _ else _) _
        rw [if_neg hne]
        have hnode : ∀ z : PlacedStream, z.sp = y.sp → ∀ e : Cells Block,
            streamList.segment (before ++ z :: rest) 0 + e =
              streamList.cells z (streamList.first rest 0) +
                (streamList.segment before y.sp + streamList.segment rest 0 + e) := by
          intro z hz e
          rw [streamList.segment_append, streamList.segment_cons, ← hz]
          change streamList.segment before z.sp + _ + _ = _
          abel
        rw [hnode y rfl]
        apply ((spec_setStream t.direction (sscanf resultFormat v cs)).frame _).bind
        rintro - c ⟨e, ⟨y', hsp, hsettings, hstream, rfl⟩, rfl⟩
        have hstores := h.set hx hsettings (by
          rw [hstream]
          cases t.direction <;> rfl)
        have hstreams : (before ++ y' :: rest).map (·.stream) = before.map (·.stream) ++
            y.stream.setResults t.direction (sscanf resultFormat v cs) ::
              rest.map (·.stream) := by
          rw [List.map_append, List.map_cons, hstream]
        rw [← hstreams] at hrest
        have hfirst' : streamList.first (before ++ y' :: rest) 0 =
            streamList.first x.streams 0 := by
          rw [hx, streamList.first_append, streamList.first_append]
          exact congrArg _ hsp
        have hspec := ih cs'.length (by rw [← hn]; exact length_nextLine hnext) hstores hrest rfl
        rw [Placement.cells, add_assoc, hnode y' hsp] at hspec
        simp only [Placement.block, hfirst'] at hspec
        split
        · next hnone =>
          rw [hnext] at hnone
          cases hnone
        · next cs'' hnext' =>
          obtain rfl : cs' = cs'' := Option.some.inj (hnext.symm.trans hnext')
          exact hspec

/-- What the text is used for does not depend on the old value. -/
theorem parseCpu_start {toks : List (List UInt8)} {a b : ℚ} (h : parseCpu toks a = .ok b)
    (a' : ℚ) : ∃ b', parseCpu toks a' = .ok b' := by
  induction toks generalizing a a' with
  | nil => exact ⟨a', rfl⟩
  | cons tok toks ih =>
    rw [parseCpu.eq_def] at h ⊢
    dsimp only at h ⊢
    by_cases htok : tok = [45, 67]
    · rw [if_pos htok] at h ⊢
      cases toks with
      | nil => cases h
      | cons tok' toks => exact ⟨b, h⟩
    · rw [if_neg htok] at h ⊢
      exact ih h a'

/-- The test without addresses after `parse_results`, and whether every id was known. -/
def parsed (t : Test) (v : Fields) (memory : List UInt8) : Option (Test × Bool) :=
  match Iperf.parse_results v memory ⟨t, ⟨[], [], []⟩, 0⟩ with
  | .ok _ p => some (p.test, true)
  | .error .failed p => some (p.test, false)
  | .error (.stuck _) _ => none

theorem parsed_spec {v : Fields} {memory : List UInt8} {t' : Test} {known : Bool}
    (h : parsed t v memory = some (t', known)) :
    ∃ cs strp cpu remote_cpu_util streams, cstring memory = .ok cs ∧ nextLine cs = some strp ∧
      parseCpu (strtok (cs.takeWhile (· ≠ 10))) 0 = .ok cpu ∧
      Iperf.parseLines t.direction v strp t.streams = .ok (streams, known) ∧
      t' = { t with remote_cpu_util, streams } := by
  rw [parsed, Iperf.parse_results, get_bind] at h
  cases hcs : cstring memory with
  | error e =>
    rw [bind_error (lift_error hcs)] at h
    cases h
  | ok cs =>
    rw [lift_bind_ok hcs] at h
    cases hnext : nextLine cs with
    | none =>
      simp only [hnext] at h
      cases h
    | some strp =>
      simp only [hnext] at h
      cases hcpu : parseCpu (strtok (cs.takeWhile (· ≠ 10))) t.remote_cpu_util with
      | error e =>
        rw [bind_error (lift_error hcpu)] at h
        cases h
      | ok remote_cpu_util =>
        rw [lift_bind_ok hcpu, modifyTest_bind] at h
        cases hlines : Iperf.parseLines t.direction v strp t.streams with
        | error e =>
          rw [bind_error (lift_error hlines)] at h
          cases h
        | ok result =>
          obtain ⟨streams, known'⟩ := result
          rw [lift_bind_ok hlines] at h
          dsimp only at h
          rw [modifyTest_bind] at h
          obtain ⟨cpu, hcpu'⟩ := parseCpu_start hcpu 0
          refine ⟨cs, strp, cpu, remote_cpu_util, streams, rfl, hnext, hcpu', ?_⟩
          cases known' with
          | false =>
            rw [if_neg Bool.false_ne_true] at h
            cases h
            exact ⟨hlines, rfl⟩
          | true =>
            rw [if_pos rfl] at h
            cases h
            exact ⟨hlines, rfl⟩

/-- Where the test without addresses does not crash, the blocks do not either. -/
theorem spec_parse_results {v : Fields} {memory : List UInt8} {t' : Test} {known : Bool}
    {results : ℕ} (h : Stores x t) (hparsed : parsed t v memory = some (t', known)) :
    Spec (x.cells test t + {(results, .text memory)}) (parse_results test results v) fun b c' =>
      b = known ∧ ∃ e, Holds test t' e ∧ c' = e + {(results, .text memory)} := by
  obtain ⟨cs, strp, cpu, remote_cpu_util, streams, hcs, hnext, hcpu, hlines, rfl⟩ :=
    parsed_spec hparsed
  apply spec_loadAs_bind (K := textKind) (a := memory) (by simp)
  simp only [hcs, hnext, hcpu]
  apply (spec_parseLines h hlines).mono
  rintro b c ⟨hb, e, he, rfl⟩
  exact ⟨hb, e, he.congr rfl, rfl⟩

theorem spec_packageResults (x : Placement) (t : Test) :
    Spec (x.cells test t) (packageResults A test) fun results c' =>
      c' = {(results, .text [])} + x.cells test t := by
  apply spec_loadAs_bind (K := testKind) (a := x.block t) (by simp [Placement.cells])
  apply spec_malloc_bind A
  intro results _
  let others (results : ℕ) : Cells Block :=
    {(results, .text [])} + ({(test, .test (x.block t))} + x.parts t)
  have hcells : ∀ p, {(p, Block.text [])} + x.cells test t =
      streamList.segment x.streams 0 + others p := by
    intro p
    simp only [others, Placement.cells]
    abel
  rw [hcells]
  let inv (done rest : List PlacedStream) (_ : ℕ) : Prop := done ++ rest = x.streams
  apply (spec_forEach streamList others inv ?_ (s := results) (List.nil_append _)).mono
  · rintro results c ⟨items, hitems, -, rfl⟩
    rw [hcells, ← hitems, List.append_nil]
  · intro done y rest results tail hitems
    apply spec_loadAs_bind (K := streamKind) (a := y.block tail) (by simp [streamList])
    apply spec_loadAs_bind (K := resultKind) (a := y.resultBlock)
      (by simp [streamList_cells, PlacedStream.block])
    apply spec_malloc_bind A
    intro moved _
    apply spec_free_bind (p := results) (b := .text [])
      (d := streamList.cells y tail + others moved)
    · simp only [others]
      abel
    · refine spec_pure ⟨y, ?_, rfl, rfl⟩
      change done ++ [y] ++ rest = _
      rw [← hitems, List.append_assoc, List.singleton_append]

/-- What an exchange makes of the test without addresses, and whether it succeeds. -/
def Exchange.after (t : Test) : Exchange → Option (Test × Bool)
  | .read v memory => parsed t v memory
  | _ => some (t, false)

/-- A text that an exchange has not freed. -/
def Exchange.lost : Exchange → ℕ
  | .unsized => 0
  | _ => 1

theorem spec_iperf_exchange_results (e : Exchange) {t' : Test} {known : Bool} (h : Stores x t)
    (he : e.after t = some (t', known)) :
    Spec (x.cells test t) (iperf_exchange_results A test e) fun b c' => b = known ∧
      ∃ held lost, Holds test t' held ∧
        Multiset.card lost = (if known then 0 else e.lost) ∧ c' = held + lost := by
  apply (spec_packageResults A x t).bind
  rintro results c rfl
  cases e with
  | unsent =>
    cases he
    exact spec_pure ⟨rfl, _, {(results, .text [])}, ⟨x, h, rfl⟩, rfl, add_comm _ _⟩
  | unsized =>
    cases he
    apply spec_free_bind rfl
    exact spec_pure ⟨rfl, _, 0, ⟨x, h, rfl⟩, rfl, (add_zero _).symm⟩
  | unread memory =>
    cases he
    apply spec_free_bind rfl
    apply spec_malloc_bind A
    intro results' _
    exact spec_pure ⟨rfl, _, {(results', .text memory)}, ⟨x, h, rfl⟩, rfl, add_comm _ _⟩
  | read v memory =>
    apply spec_free_bind rfl
    apply spec_malloc_bind A
    intro results' _
    rw [add_comm]
    apply (spec_parse_results h he).bind
    rintro b c ⟨rfl, held, hheld, rfl⟩
    cases b with
    | true =>
      rw [if_pos rfl]
      apply spec_free_bind (add_comm _ _)
      exact spec_pure ⟨rfl, held, 0, hheld, rfl, (add_zero _).symm⟩
    | false =>
      rw [if_neg Bool.false_ne_true]
      exact spec_pure ⟨rfl, held, _, hheld, rfl, rfl⟩

end Exchanges

end IperfMemory
