import Mathlib

/-! # Options of a command line

The words of a command line are read as options. A set of options says which letters there are, and
which of them take an argument. Nothing here names a particular program. -/
namespace CommandOptions

inductive Opt where
  | flag (c : UInt8)
  | valued (c : UInt8) (optarg : List UInt8)
  deriving DecidableEq, Repr

abbrev Letters := UInt8 → Option Bool

def Opt.words : Opt → List (List UInt8)
  | .flag c => [[45, c]]
  | .valued c optarg => [[45, c], optarg]

/-- The options of one word behind its `'-'`, and the letter whose argument is the next word. What is
not a letter is found as `'?'`. -/
def cluster (letters : Letters) : List UInt8 → List Opt × Option UInt8
  | [] => ([], none)
  | c :: cs =>
    match letters c with
    | some true => if cs = [] then ([], some c) else ([.valued c cs], none)
    | some false => ((cluster letters cs).map (.flag c :: ·) id)
    | none => ((cluster letters cs).map (.flag 63 :: ·) id)

inductive Word where
  | last
  | operand
  | letters (cs : List UInt8)
  deriving DecidableEq, Repr

/-- `"--"`, a word that is no option, or a word of options. -/
def classify : List UInt8 → Word
  | [] => .operand
  | [_] => .operand
  | c :: c' :: cs =>
    if c ≠ 45 then .operand else if c' = 45 ∧ cs = [] then .last else .letters (c' :: cs)

/-- What call after call returns. Words that are no options are passed over, and `"--"` is the
end. -/
def getopt (letters : Letters) : List (List UInt8) → List Opt
  | [] => []
  | word :: words =>
    match classify word with
    | .last => []
    | .operand => getopt letters words
    | .letters cs =>
      match cluster letters cs, words with
      | (opts, none), words => opts ++ getopt letters words
      | (opts, some _), [] => opts ++ [.flag 63]
      | (opts, some c), optarg :: words => opts ++ .valued c optarg :: getopt letters words

def Opt.Written (letters : Letters) : Opt → Prop
  | .flag c => c ≠ 45 ∧ letters c = some false
  | .valued c _ => c ≠ 45 ∧ letters c = some true

variable {letters : Letters} {c : UInt8}

theorem classify_letter (hc : c ≠ 45) : classify [45, c] = .letters [c] := by
  simp [classify, hc]

theorem getopt_flag (hc : c ≠ 45) (h : letters c = some false) (words : List (List UInt8)) :
    getopt letters ([45, c] :: words) = .flag c :: getopt letters words := by
  have hcluster : cluster letters [c] = ([.flag c], none) := by
    simp only [cluster, h]
    rfl
  simp only [getopt, classify_letter hc, hcluster]
  rfl

theorem getopt_valued (hc : c ≠ 45) (h : letters c = some true) (optarg : List UInt8)
    (words : List (List UInt8)) :
    getopt letters ([45, c] :: optarg :: words) = .valued c optarg :: getopt letters words := by
  have hcluster : cluster letters [c] = ([], some c) := by
    simp only [cluster, h, if_true]
  rw [getopt]
  simp only [classify_letter hc, hcluster]
  rfl

theorem getopt_words {opts : List Opt} (h : ∀ opt ∈ opts, opt.Written letters) :
    getopt letters (opts.flatMap Opt.words) = opts := by
  induction opts with
  | nil => rfl
  | cons opt opts ih =>
    obtain ⟨hopt, hopts⟩ := List.forall_mem_cons.mp h
    rw [List.flatMap_cons]
    cases opt with
    | flag c => exact (getopt_flag hopt.1 hopt.2 _).trans (congrArg _ (ih hopts))
    | valued c optarg => exact (getopt_valued hopt.1 hopt.2 _ _).trans (congrArg _ (ih hopts))

end CommandOptions
