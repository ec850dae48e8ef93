import BetLang.AstDump
import Mathlib.Data.List.Nodup
import Mathlib.Logic.Function.Basic

/-! A line of the dump tells its words, and each word what it stands for. -/

namespace BetLang.AstDump

open Mangling (Ident Text decimal)
open Outline (Marked Visible mark_cancel)
open Surface

section Quoting

/-- The first character of a quoted text. -/
def unescape : Text → Option (Char × Text)
  | [] => none
  | c :: r =>
    if c = '\\' then
      r.head?.map fun e =>
        (if e = 'n' then '\n' else if e = 't' then '\t' else if e = 'r' then '\r' else e, r.tail)
    else some (c, r)

theorem unescape_escape (c : Char) (r : Text) : unescape (escape c ++ r) = some (c, r) := by
  by_cases hslash : c = '\\'
  · subst hslash
    rfl
  by_cases hquote : c = '"'
  · subst hquote
    rfl
  by_cases hnewline : c = '\n'
  · subst hnewline
    rfl
  by_cases htab : c = '\t'
  · subst htab
    rfl
  by_cases hreturn : c = '\r'
  · subst hreturn
    rfl
  simp [escape, unescape, hslash, hquote, hnewline, htab, hreturn]

theorem escape_cancel {c c' : Char} {r r' : Text} (h : escape c ++ r = escape c' ++ r') :
    c = c' ∧ r = r' := by
  have hread := congrArg unescape h
  rw [unescape_escape, unescape_escape] at hread
  simpa using hread

/-- The end of a quoted text is no part of it. -/
theorem escape_ne_quote (c : Char) (r r' : Text) : escape c ++ r ≠ '"' :: r' := by
  intro h
  have hread := congrArg unescape h
  rw [unescape_escape] at hread
  have hc : c = '"' := by
    simp [unescape] at hread
    exact hread.1
  subst hc
  simp [escape] at h

theorem quoted_cancel {s s' r r' : Text}
    (h : s.flatMap escape ++ '"' :: r = s'.flatMap escape ++ '"' :: r') : s = s' ∧ r = r' := by
  induction s generalizing s' with
  | nil =>
    cases s' with
    | nil => simpa using h
    | cons c' s' =>
      simp only [List.flatMap_nil, List.nil_append, List.flatMap_cons, List.append_assoc] at h
      exact (escape_ne_quote _ _ _ h.symm).elim
  | cons c s ih =>
    cases s' with
    | nil =>
      simp only [List.flatMap_nil, List.nil_append, List.flatMap_cons, List.append_assoc] at h
      exact (escape_ne_quote _ _ _ h).elim
    | cons c' s' =>
      simp only [List.flatMap_cons, List.append_assoc] at h
      have hfirst := escape_cancel h
      have hrest := ih hfirst.2
      rw [hfirst.1, hrest.1]
      exact ⟨rfl, hrest.2⟩

theorem newline_not_escaped (c : Char) : '\n' ∉ escape c := by
  rw [escape]
  split_ifs <;> simp_all [eq_comm]

end Quoting

section Lines

theorem plain_no_blank {w : Text} (hw : Plain w) : ' ' ∉ w := fun h => (hw.2 _ h).1 rfl

theorem plain_ne_quoted {w r r' : Text} (hw : Plain w) : w ++ r ≠ '"' :: r' := by
  intro h
  cases w with
  | nil => exact hw.1 rfl
  | cons c w =>
    simp only [List.cons_append, List.cons.injEq] at h
    exact (hw.2 c (by simp)).2.2 h.1

theorem word_cancel {a b : Word} {r r' : Text} (hr : Marked ' ' r) (hr' : Marked ' ' r')
    (h : a.text ++ r = b.text ++ r') : a = b ∧ r = r' := by
  cases a with
  | plain w hw =>
    cases b with
    | plain w' hw' =>
      obtain ⟨rfl, hrest⟩ := mark_cancel (plain_no_blank hw) (plain_no_blank hw') hr hr' h
      exact ⟨rfl, hrest⟩
    | quoted s' => exact (plain_ne_quoted hw h).elim
  | quoted s =>
    cases b with
    | plain w' hw' => exact (plain_ne_quoted hw' h.symm).elim
    | quoted s' =>
      simp only [Word.text, quote, List.cons_append, List.append_assoc, List.nil_append,
        List.cons.injEq, true_and] at h
      obtain ⟨rfl, hrest⟩ := quoted_cancel h
      exact ⟨rfl, hrest⟩

theorem words_marked (ws : List Word) : Marked ' ' (ws.flatMap fun w => ' ' :: w.text) := by
  cases ws with
  | nil => exact .inl rfl
  | cons w ws => exact .inr ⟨w.text ++ ws.flatMap fun w => ' ' :: w.text, by simp⟩

theorem words_cancel {ws ws' : List Word}
    (h : (ws.flatMap fun w => ' ' :: w.text) = ws'.flatMap fun w => ' ' :: w.text) : ws = ws' := by
  induction ws generalizing ws' with
  | nil =>
    cases ws' with
    | nil => rfl
    | cons w' ws' => simp at h
  | cons w ws ih =>
    cases ws' with
    | nil => simp at h
    | cons w' ws' =>
      simp only [List.flatMap_cons, List.cons_append, List.cons.injEq, true_and] at h
      have hfirst := word_cancel (words_marked ws) (words_marked ws') h
      rw [hfirst.1, ih hfirst.2]

def Head.all : List Head :=
  [.program, .pull, .func, .receiver, .drip, .field, .moods, .variant, .crib, .const, .type,
    .value, .var, .values, .externFn, .generics, .typeargs, .params, .param, .ret, .slice, .array,
    .tag, .cribTy, .soa, .fnTy, .rawptr, .named, .block, .fr, .elif, .els, .vibin, .squad, .vibe,
    .arm, .default, .holla, .live, .ghosted, .sheesh, .recover, .evict, .evictSlot, .slide, .bet,
    .bounce, .yeet, .dip, .skip, .assign, .targets, .exprStmt, .int, .float, .str, .byte, .bool,
    .name, .unary, .binary, .cast, .method, .call, .callee, .index, .trust, .arrayLit, .cop,
    .struct, .fields, .args, .arg]

theorem injective_of_table {α β : Type} {f : α → β} (all : List α) (hall : ∀ a, a ∈ all)
    (hnodup : (all.map f).Nodup) : Function.Injective f :=
  fun a b h => List.inj_on_of_nodup_map hnodup (hall a) (hall b) h

theorem Head.mem_all (h : Head) : h ∈ Head.all := by cases h <;> decide

/-- No two heads are written alike. -/
theorem Head.text_injective : Function.Injective Head.text :=
  injective_of_table Head.all Head.mem_all (by decide)

theorem Head.plain (h : Head) : Plain h.text := by cases h <;> decide

theorem line_injective : Function.Injective Line.text := by
  rintro ⟨head, ws⟩ ⟨head', ws'⟩ h
  have hline := mark_cancel (plain_no_blank head.plain) (plain_no_blank head'.plain)
    (words_marked ws) (words_marked ws') h
  rw [Head.text_injective hline.1, words_cancel hline.2]

theorem word_one_line (w : Word) : '\n' ∉ w.text := by
  cases w with
  | plain w hw => exact fun h => (hw.2 _ h).2.1 rfl
  | quoted s =>
    simp only [Word.text, quote, List.mem_cons, List.mem_append, List.mem_flatMap, not_or,
      not_exists, not_and]
    exact ⟨by decide, fun c _ => newline_not_escaped c, by decide, by simp⟩

theorem line_visible (l : Line) : Visible l.text := by
  obtain ⟨head, ws⟩ := l
  have hhead := head.plain
  refine ⟨?_, ?_⟩
  · simp only [Line.text, List.mem_append, List.mem_flatMap, List.mem_cons, not_or, not_exists,
      not_and]
    exact ⟨fun h => (hhead.2 _ h).2.1 rfl, fun w _ => ⟨by decide, word_one_line w⟩⟩
  · obtain ⟨c, cs, hcs⟩ := List.exists_cons_of_ne_nil hhead.1
    exact ⟨c, by simp [Line.text, hcs], (hhead.2 c (by simp [hcs])).1⟩

end Lines

section Payloads

theorem visStr_injective : Function.Injective visStr :=
  injective_of_table [.flex, .hush] (fun v => by cases v <;> decide) (by decide)

theorem fieldVis_injective : Function.Injective fieldVis :=
  injective_of_table [none, some .flex, some .hush] (fun v => by rcases v with _ | _ | _ <;> decide)
    (by decide)

theorem unopStr_injective : Function.Injective unopStr :=
  injective_of_table [.neg, .not, .bitNot] (fun o => by cases o <;> decide) (by decide)

theorem binopStr_injective : Function.Injective binopStr :=
  injective_of_table [.or, .and, .eq, .ne, .lt, .le, .gt, .ge, .bitOr, .bitXor, .bitAnd, .shl,
    .shr, .add, .sub, .mul, .div, .rem] (fun o => by cases o <;> decide) (by decide)

theorem assignOpStr_injective : Function.Injective assignOpStr :=
  injective_of_table [.eq, .addEq, .subEq, .mulEq, .divEq, .remEq, .andEq, .orEq, .xorEq, .shlEq,
    .shrEq] (fun o => by cases o <;> decide) (by decide)

theorem boolStr_injective : Function.Injective boolStr :=
  injective_of_table [true, false] (fun b => by cases b <;> decide) (by decide)

theorem ident_text_injective : Function.Injective Ident.text := by
  rintro ⟨text, _⟩ ⟨text', _⟩ h
  cases h
  rfl

theorem identWord_injective : Function.Injective identWord := fun _ _ h =>
  ident_text_injective (Word.plain.inj h)

theorem ident_no_dot (name : Ident) : '.' ∉ name.text := fun h =>
  absurd ((ident_parts name).2 _ h) (by decide)

theorem pathWord_injective : Function.Injective pathWord := by
  rintro ⟨head, member⟩ ⟨head', member'⟩ h
  have htext : pathText ⟨head, member⟩ = pathText ⟨head', member'⟩ := Word.plain.inj h
  have split (a : Ident) (m : Option Ident) : ∃ r, pathText ⟨a, m⟩ = a.text ++ r ∧
      Marked '.' r := by
    cases m with
    | none => exact ⟨[], by simp [pathText], .inl rfl⟩
    | some m => exact ⟨'.' :: m.text, rfl, .inr ⟨_, rfl⟩⟩
  obtain ⟨r, hr, hdot⟩ := split head member
  obtain ⟨r', hr', hdot'⟩ := split head' member'
  have hhead : head = head' := by
    rw [hr, hr'] at htext
    exact ident_text_injective
      (mark_cancel (ident_no_dot head) (ident_no_dot head') hdot hdot' htext).1
  subst hhead
  cases member with
  | none =>
    cases member' with
    | none => rfl
    | some m' => simp [pathText] at htext
  | some m =>
    cases member' with
    | none => simp [pathText] at htext
    | some m' =>
      simp only [pathText, List.append_cancel_left_eq, List.cons.injEq, true_and] at htext
      rw [ident_text_injective htext]

theorem natWord_injective : Function.Injective natWord := fun _ _ h =>
  Mangling.decimal_injective (Word.plain.inj h)

theorem sizeWord_injective : Function.Injective sizeWord := fun _ _ h =>
  UInt64.toNat_inj.mp (natWord_injective h)

theorem byteWord_injective : Function.Injective byteWord := fun _ _ h =>
  UInt8.toNat_inj.mp (natWord_injective h)

theorem sign_no_digit (n : Nat) (r : Text) : decimal n ≠ '-' :: r := fun h =>
  absurd (Mangling.decimal_digits n '-' (by simp [h])) (by decide)

theorem intWord_injective : Function.Injective intWord := by
  intro n m h
  have htext : intText n = intText m := Word.plain.inj h
  rw [intText, intText] at htext
  by_cases hn : 0 ≤ n
  · by_cases hm : 0 ≤ m
    · rw [if_pos hn, if_pos hm] at htext
      have := Mangling.decimal_injective htext
      omega
    · rw [if_pos hn, if_neg hm] at htext
      exact (sign_no_digit _ _ htext).elim
  · by_cases hm : 0 ≤ m
    · rw [if_neg hn, if_pos hm] at htext
      exact (sign_no_digit _ _ htext.symm).elim
    · rw [if_neg hn, if_neg hm] at htext
      have := Mangling.decimal_injective (List.cons.inj htext).2
      omega

theorem strWord_injective : Function.Injective strWord := fun _ _ h =>
  String.toList_inj.mp (Word.quoted.inj h)

variable {F : Type} (fl : Floats F)

/-- A fraction of zero is written where the display has no point. -/
theorem fmtFloat_eq (f : F) : fmtFloat fl f =
    if '.' ∈ fl.display f then fl.display f else fl.display f ++ ['.', '0'] := by
  have hpoint : (fl.display f).any (fun c => c ∈ ['.', 'e', 'E', 'n', 'i']) = true ↔
      '.' ∈ fl.display f := by
    rw [List.any_eq_true]
    constructor
    · rintro ⟨c, hc, hmem⟩
      rcases fl.display_chars f c hc with hdigit | rfl | rfl
      · simp only [List.mem_cons, List.not_mem_nil, or_false, decide_eq_true_eq] at hmem
        rcases hmem with rfl | rfl | rfl | rfl | rfl
        · exact hc
        all_goals exact absurd hdigit (by decide)
      · exact hc
      · exact absurd hmem (by decide)
    · exact fun h => ⟨'.', h, by decide⟩
  simp only [fmtFloat, hpoint]

theorem floatWord_injective : Function.Injective (floatWord fl) := by
  intro f f' h
  have htext : fmtFloat fl f = fmtFloat fl f' := Word.plain.inj h
  have reads (f : F) : fl.read (fmtFloat fl f) = some f := by
    rw [fmtFloat_eq]
    split_ifs with hpoint
    · exact fl.read_display f
    · exact fl.read_whole f hpoint
  have hread := reads f
  rw [htext, reads f'] at hread
  exact (Option.some.inj hread).symm

end Payloads

end BetLang.AstDump
