import Mathlib.Data.List.Count

/-! Format strings: the interpreter fills them as it scans, lowering splits them and prints one
piece after the other. -/

namespace BetLang.Format

inductive FormatError where
  | badFormat (msg : String)

def loneOpen : String := "lone `\x7b` in format string"

def loneClose : String := "lone `\x7d` in format string"

/-- The scan of `format_str`: `next` is the number of the next argument. -/
def formatLoop (args : List String) (out : List Char) (next : Nat) :
    List Char → Except FormatError (List Char)
  | '{' :: '{' :: rest => formatLoop args (out ++ ['{']) next rest
  | '{' :: '}' :: rest =>
    match args[next]? with
    | some text => formatLoop args (out ++ text.toList) (next + 1) rest
    | none => .error (.badFormat s!"format needs at least {next + 1} argument(s)")
  | '{' :: _ => .error (.badFormat loneOpen)
  | '}' :: '}' :: rest => formatLoop args (out ++ ['}']) next rest
  | '}' :: _ => .error (.badFormat loneClose)
  | c :: rest => formatLoop args (out ++ [c]) next rest
  | [] => .ok out

def formatStr (fmt : String) (args : List String) : Except FormatError String :=
  String.ofList <$> formatLoop args [] 0 fmt.toList

inductive FmtSeg where
  | text (s : List Char)
  | hole

def splitLoop (segs : List FmtSeg) (text : List Char) : List Char → Except String (List FmtSeg)
  | '{' :: '{' :: rest => splitLoop segs (text ++ ['{']) rest
  | '{' :: '}' :: rest => splitLoop (segs ++ [.text text, .hole]) [] rest
  | '{' :: _ => .error ("`spill.f`: " ++ loneOpen)
  | '}' :: '}' :: rest => splitLoop segs (text ++ ['}']) rest
  | '}' :: _ => .error ("`spill.f`: " ++ loneClose)
  | c :: rest => splitLoop segs (text ++ [c]) rest
  | [] => .ok (segs ++ [.text text])

def splitFormat (fmt : String) : Except String (List FmtSeg) := splitLoop [] [] fmt.toList

def FmtSeg.isHole : FmtSeg → Bool
  | text _ => false
  | hole => true

/-- The prints of `spill.f`, one for each text that is not empty and one for each argument. -/
def prints (args : List String) (next : Nat) : List FmtSeg → List (List Char)
  | [] => []
  | .text t :: segs => if t.isEmpty then prints args next segs else t :: prints args next segs
  | .hole :: segs => (args[next]?.getD "").toList :: prints args (next + 1) segs

/-- The code of `spill.f`, by what it prints when it runs. -/
def lowerSpillF (fmt : String) (args : List String) : Except String (List (List Char)) := do
  let segments ← splitFormat fmt
  let holes := segments.countP FmtSeg.isHole
  if holes ≠ args.length then
    throw (s!"`spill.f` format has {holes} `\x7b\x7d` placeholder(s) but {args.length} " ++
      "argument(s) were supplied")
  return prints args 0 segments

/-- A format string as text and placeholders; a lone brace is no format string. -/
inductive Token where
  | char (c : Char)
  | placeholder

def tokens : List Char → Option (List Token)
  | '{' :: '{' :: rest => (Token.char '{' :: ·) <$> tokens rest
  | '{' :: '}' :: rest => (Token.placeholder :: ·) <$> tokens rest
  | '{' :: _ => none
  | '}' :: '}' :: rest => (Token.char '}' :: ·) <$> tokens rest
  | '}' :: _ => none
  | c :: rest => (Token.char c :: ·) <$> tokens rest
  | [] => some []

def Token.isPlaceholder : Token → Bool
  | char _ => false
  | placeholder => true

def placeholders (ts : List Token) : Nat := ts.countP Token.isPlaceholder

/-- The text of the tokens, each placeholder with the next argument; none where one is missing. -/
def fill : List Token → List String → Option (List Char)
  | [], _ => some []
  | .char c :: ts, args => (c :: ·) <$> fill ts args
  | .placeholder :: ts, a :: args => (a.toList ++ ·) <$> fill ts args
  | .placeholder :: _, [] => none

theorem fill_isSome (ts : List Token) (args : List String) :
    (fill ts args).isSome = true ↔ placeholders ts ≤ args.length := by
  induction ts generalizing args with
  | nil => simp [fill, placeholders]
  | cons t ts ih =>
    cases t with
    | char c => simpa [fill, placeholders, Token.isPlaceholder] using ih args
    | placeholder =>
      cases args with
      | nil => simp [fill, placeholders, Token.isPlaceholder]
      | cons a args =>
        simpa [fill, placeholders, Token.isPlaceholder, List.countP_cons] using ih args

theorem formatLoop_eq (args : List String) (out : List Char) (next : Nat) (cs : List Char) :
    (formatLoop args out next cs).toOption =
      (tokens cs).bind fun ts => (out ++ ·) <$> fill ts (args.drop next) := by
  fun_induction formatLoop args out next cs with
  | case1 out next rest ih =>
    rw [ih, tokens]
    cases tokens rest with
    | none => rfl
    | some ts => cases hf : fill ts (args.drop next) <;> simp [fill, hf]
  | case2 out next rest text htext ih =>
    rw [ih, tokens]
    have hdrop : args.drop next = text :: args.drop (next + 1) := by
      obtain ⟨hlt, rfl⟩ := List.getElem?_eq_some_iff.mp htext
      exact List.drop_eq_getElem_cons hlt
    cases tokens rest with
    | none => rfl
    | some ts => cases hf : fill ts (args.drop (next + 1)) <;> simp [fill, hdrop, hf]
  | case3 out next rest hnone =>
    rw [tokens]
    have hdrop : args.drop next = [] :=
      List.drop_eq_nil_iff.mpr (List.getElem?_eq_none_iff.mp hnone)
    cases tokens rest with
    | none => rfl
    | some ts => simp [fill, hdrop, Except.toOption]
  | case4 out next rest h1 h2 =>
    rw [tokens]
    · rfl
    · exact h1
    · exact h2
  | case5 out next rest ih =>
    rw [ih, tokens]
    cases tokens rest with
    | none => rfl
    | some ts => cases hf : fill ts (args.drop next) <;> simp [fill, hf]
  | case6 out next rest h =>
    rw [tokens]
    · rfl
    · exact h
  | case7 out next c rest h1 h2 h3 h4 h5 ih =>
    rw [ih, tokens]
    · cases tokens rest with
      | none => rfl
      | some ts => cases hf : fill ts (args.drop next) <;> simp [fill, hf]
    all_goals assumption
  | case8 out next => simp [tokens, fill, Except.toOption]

/-- The segments of the tokens after a run of text. -/
def group (text : List Char) : List Token → List FmtSeg
  | [] => [.text text]
  | .char c :: ts => group (text ++ [c]) ts
  | .placeholder :: ts => .text text :: .hole :: group [] ts

theorem splitLoop_eq (segs : List FmtSeg) (text cs : List Char) :
    (splitLoop segs text cs).toOption = (tokens cs).map fun ts => segs ++ group text ts := by
  fun_induction splitLoop segs text cs with
  | case1 segs text rest ih =>
    rw [ih, tokens]
    cases tokens rest <;> rfl
  | case2 segs text rest ih =>
    rw [ih, tokens]
    cases tokens rest <;> simp [group]
  | case3 segs text rest h1 h2 =>
    rw [tokens]
    · rfl
    · exact h1
    · exact h2
  | case4 segs text rest ih =>
    rw [ih, tokens]
    cases tokens rest <;> rfl
  | case5 segs text rest h =>
    rw [tokens]
    · rfl
    · exact h
  | case6 segs text c rest h1 h2 h3 h4 h5 ih =>
    rw [ih, tokens]
    · cases tokens rest <;> rfl
    all_goals assumption
  | case7 segs text => simp [tokens, group, Except.toOption]

theorem holes_group (text : List Char) (ts : List Token) :
    (group text ts).countP FmtSeg.isHole = placeholders ts := by
  induction ts generalizing text with
  | nil => simp [group, placeholders, FmtSeg.isHole]
  | cons t ts ih =>
    cases t with
    | char c =>
      have h := ih (text ++ [c])
      simpa [group, placeholders, Token.isPlaceholder, List.countP_cons] using h
    | placeholder =>
      have h := ih []
      simpa [group, placeholders, Token.isPlaceholder, FmtSeg.isHole, List.countP_cons] using h

theorem prints_text (args : List String) (next : Nat) (t : List Char) (segs : List FmtSeg) :
    (prints args next (.text t :: segs)).flatten = t ++ (prints args next segs).flatten := by
  rw [prints]
  by_cases ht : t = []
  · simp [ht]
  · simp [ht]

/-- The prints one after the other are the filled format string. -/
theorem prints_group {args : List String} {next : Nat} {text t : List Char} {ts : List Token}
    (h : fill ts (args.drop next) = some t) :
    (prints args next (group text ts)).flatten = text ++ t := by
  induction ts generalizing next text t with
  | nil =>
    cases h
    rw [group, prints_text]
    rfl
  | cons tok ts ih =>
    cases tok with
    | char c =>
      obtain ⟨t', ht', rfl⟩ := Option.map_eq_some_iff.mp h
      rw [group, ih ht', List.append_assoc]
      rfl
    | placeholder =>
      cases hdrop : args.drop next with
      | nil =>
        rw [hdrop] at h
        cases h
      | cons a rest =>
        rw [hdrop] at h
        obtain ⟨t', ht', rfl⟩ := Option.map_eq_some_iff.mp h
        have hget : args[next]? = some a := by
          have h0 : (args.drop next)[0]? = args[next + 0]? := List.getElem?_drop
          rw [hdrop] at h0
          exact h0.symm
        have hrest : args.drop (next + 1) = rest := by
          rw [← List.drop_drop, hdrop]
          rfl
        rw [← hrest] at ht'
        rw [group, prints_text, prints, hget, List.flatten_cons, ih ht']
        rfl

/-- The same text, or an error on both sides. -/
def Agrees (fmt : String) (args : List String) : Prop :=
  (∃ e e', formatStr fmt args = .error e ∧ lowerSpillF fmt args = .error e') ∨
    ∃ ps, formatStr fmt args = .ok (String.ofList ps.flatten) ∧ lowerSpillF fmt args = .ok ps

theorem toOption_eq_some {ε α : Type} {x : Except ε α} {a : α} (h : x.toOption = some a) :
    x = .ok a := by
  cases x with
  | error e => cases h
  | ok b =>
    cases h
    rfl

theorem toOption_eq_none {ε α : Type} {x : Except ε α} (h : x.toOption = none) :
    ∃ e, x = .error e := by
  cases x with
  | error e => exact ⟨e, rfl⟩
  | ok b => cases h

section

variable {fmt : String} {args : List String} {ts : List Token}

theorem formatStr_error (fmt : String) (args : List String)
    (h : (tokens fmt.toList).bind (fill · args) = none) :
    ∃ e, formatStr fmt args = .error e := by
  have heq := formatLoop_eq args [] 0 fmt.toList
  obtain ⟨e, he⟩ := toOption_eq_none (x := formatLoop args [] 0 fmt.toList) (by
    rw [heq]
    cases ht : tokens fmt.toList with
    | none => rfl
    | some ts =>
      rw [ht] at h
      simp only [Option.bind_some, List.drop_zero] at h ⊢
      rw [h]
      rfl)
  exact ⟨e, by rw [formatStr, he]; rfl⟩

theorem formatStr_ok {t : List Char} (hts : tokens fmt.toList = some ts)
    (ht : fill ts args = some t) : formatStr fmt args = .ok (String.ofList t) := by
  have heq := formatLoop_eq args [] 0 fmt.toList
  rw [hts] at heq
  simp only [Option.bind_some, List.drop_zero, ht] at heq
  rw [formatStr, toOption_eq_some heq]
  rfl

theorem splitFormat_error (h : tokens fmt.toList = none) : ∃ e, splitFormat fmt = .error e := by
  refine toOption_eq_none ?_
  rw [splitFormat, splitLoop_eq, h]
  rfl

theorem splitFormat_ok (h : tokens fmt.toList = some ts) : splitFormat fmt = .ok (group [] ts) := by
  refine toOption_eq_some ?_
  rw [splitFormat, splitLoop_eq, h]
  rfl

theorem lowerSpillF_ok {segs : List FmtSeg} (h : splitFormat fmt = .ok segs)
    (hlen : segs.countP FmtSeg.isHole = args.length) :
    lowerSpillF fmt args = .ok (prints args 0 segs) := by
  rw [lowerSpillF, h]
  simp [bind, Except.bind, hlen]
  rfl

theorem lowerSpillF_error {segs : List FmtSeg} (h : splitFormat fmt = .ok segs)
    (hlen : segs.countP FmtSeg.isHole ≠ args.length) : ∃ e, lowerSpillF fmt args = .error e := by
  rw [lowerSpillF, h]
  simp [bind, Except.bind, hlen]
  exact ⟨_, rfl⟩

end

end BetLang.Format
