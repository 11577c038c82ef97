import Mathlib.Data.List.Basic
import Mathlib.Data.List.TakeWhile
import SoftError.Proofs.Text.Numeral
import SoftError.Text.Line

/-!
# Written lines

Words with a blank between them are told apart again, and so are lines that end with a line
feed: none of the bytes of another character is a line feed.
-/

namespace SoftError.Text

theorem IsWord.newline_notMem {w : List Char} (h : IsWord w) : '\n' ∉ w := fun hMem =>
  absurd (h.2 _ hMem) (by decide)

theorem words_cons_cons (c d : Char) (cs : List Char) :
    words (c :: d :: cs) =
      if isBlank c then words (d :: cs)
      else if isBlank d then [c] :: words (d :: cs)
      else match words (d :: cs) with
        | [] => [[c]]
        | w :: ws => (c :: w) :: ws := by
  exact rfl

theorem words_singleton {c : Char} (hc : isBlank c = false) : words [c] = [[c]] := by
  have hWords : words [c] = if isBlank c then words [] else [[c]] := rfl
  rw [hWords, hc]
  rfl

theorem words_blank_cons {b : Char} (hb : isBlank b = true) (cs : List Char) :
    words (b :: cs) = words cs := by
  have hWords : words (b :: cs) = if isBlank b then words cs else _ := rfl
  rw [hWords, if_pos hb]

theorem words_append_blank {w : List Char} (hw : IsWord w) {b : Char} (hb : isBlank b = true)
    (cs : List Char) : words (w ++ b :: cs) = w :: words cs := by
  obtain ⟨hNonempty, hPlain⟩ := hw
  induction w with
  | nil => exact absurd rfl hNonempty
  | cons c w ih =>
    obtain ⟨hc, hPlain⟩ := List.forall_mem_cons.mp hPlain
    cases w with
    | nil =>
      rw [List.singleton_append, words_cons_cons, hc, hb, words_blank_cons hb]
      rfl
    | cons d w =>
      have hTail := ih (List.cons_ne_nil _ _) hPlain
      rw [List.cons_append] at hTail
      rw [List.cons_append, List.cons_append, words_cons_cons, hc, hPlain d List.mem_cons_self,
        hTail]
      rfl

theorem words_of_isWord {w : List Char} (hw : IsWord w) : words w = [w] := by
  obtain ⟨hNonempty, hPlain⟩ := hw
  induction w with
  | nil => exact absurd rfl hNonempty
  | cons c w ih =>
    obtain ⟨hc, hPlain⟩ := List.forall_mem_cons.mp hPlain
    cases w with
    | nil => exact words_singleton hc
    | cons d w =>
      rw [words_cons_cons, hc, hPlain d List.mem_cons_self, ih (List.cons_ne_nil _ _) hPlain]
      rfl

/-- A text that neither starts nor ends with a blank is left as it is. -/
theorem trim_eq {cs : List Char} (hHead : ∀ c ∈ cs.head?, isBlank c = false)
    (hLast : ∀ c ∈ cs.getLast?, isBlank c = false) : trim cs = cs := by
  have hDrop : ∀ {ds : List Char}, (∀ c ∈ ds.head?, isBlank c = false) →
      ds.dropWhile isBlank = ds := by
    intro ds hds
    cases ds with
    | nil => rfl
    | cons d ds => exact List.dropWhile_cons_of_neg (by rw [hds d rfl]; decide)
  rw [trim, hDrop hHead, hDrop (by rwa [List.head?_reverse]), List.reverse_reverse]

theorem words_dropWhile (cs : List Char) : words (cs.dropWhile isBlank) = words cs := by
  induction cs with
  | nil => rfl
  | cons c cs ih =>
    rw [List.dropWhile_cons]
    split
    · rename_i hc
      rw [ih, words_blank_cons hc]
    · rfl

theorem words_append_blanks {bs : List Char} (hbs : ∀ b ∈ bs, isBlank b = true)
    (cs : List Char) : words (cs ++ bs) = words cs := by
  induction cs with
  | nil =>
    induction bs with
    | nil => rfl
    | cons b bs ih =>
      obtain ⟨hb, hbs⟩ := List.forall_mem_cons.mp hbs
      exact (words_blank_cons hb bs).trans (ih hbs)
  | cons c cs ih =>
    cases hc : isBlank c with
    | true => rw [List.cons_append, words_blank_cons hc, words_blank_cons hc, ih]
    | false =>
      cases cs with
      | nil =>
        cases bs with
        | nil => rfl
        | cons b bs =>
          have hb := hbs b List.mem_cons_self
          rw [List.nil_append] at ih
          rw [List.singleton_append, words_cons_cons, hc, hb, ih, words_singleton hc]
          rfl
      | cons d cs =>
        rw [List.cons_append] at ih
        rw [List.cons_append, List.cons_append, words_cons_cons, words_cons_cons, ih]

/-- Trimming a line keeps its words. -/
theorem words_trim (cs : List Char) : words (trim cs) = words cs := by
  have hSplit := congrArg List.reverse (List.takeWhile_append_dropWhile
    (p := isBlank) (l := (cs.dropWhile isBlank).reverse))
  rw [List.reverse_append, List.reverse_reverse] at hSplit
  have hBlanks : ∀ b ∈ ((cs.dropWhile isBlank).reverse.takeWhile isBlank).reverse,
      isBlank b = true := by
    intro b hb
    exact List.mem_takeWhile_imp (List.mem_reverse.mp hb)
  rw [← words_dropWhile cs, ← hSplit, words_append_blanks hBlanks, trim]

/-- Words with one blank between them. -/
def line : List (List Char) → List Char
  | [] => []
  | [w] => w
  | v :: w :: ws => v ++ ' ' :: line (w :: ws)

section Line

variable {ws : List (List Char)} (hws : ∀ w ∈ ws, IsWord w)
include hws

theorem words_line : words (line ws) = ws := by
  fun_induction line ws with
  | case1 => rfl
  | case2 w => exact words_of_isWord (hws w List.mem_cons_self)
  | case3 v w ws ih =>
    obtain ⟨hv, hws⟩ := List.forall_mem_cons.mp hws
    rw [words_append_blank hv (by decide), ih hws]

theorem newline_notMem_line : '\n' ∉ line ws := by
  fun_induction line ws with
  | case1 => exact List.not_mem_nil
  | case2 w => exact (hws w List.mem_cons_self).newline_notMem
  | case3 v w ws ih =>
    obtain ⟨hv, hws⟩ := List.forall_mem_cons.mp hws
    simp [hv.newline_notMem, ih hws]

/-- The first and the last character belong to words. -/
theorem line_ends : (∀ c ∈ (line ws).head?, isBlank c = false) ∧
    (∀ c ∈ (line ws).getLast?, isBlank c = false) ∧ (ws ≠ [] → line ws ≠ []) := by
  fun_induction line ws with
  | case1 => simp
  | case2 w =>
    obtain ⟨hNonempty, hPlain⟩ := hws w List.mem_cons_self
    exact ⟨fun c hc => hPlain c (List.mem_of_mem_head? hc),
      fun c hc => hPlain c (List.mem_of_mem_getLast? hc), fun _ => hNonempty⟩
  | case3 v w ws ih =>
    obtain ⟨⟨hNonempty, hPlain⟩, hws⟩ := List.forall_mem_cons.mp hws
    obtain ⟨-, hLast, hLine⟩ := ih hws
    refine ⟨fun c hc => ?_, fun c hc => ?_, by simp⟩
    · rw [List.head?_append_of_ne_nil _ hNonempty] at hc
      exact hPlain c (List.mem_of_mem_head? hc)
    · rw [List.getLast?_append_of_ne_nil _ (by simp)] at hc
      obtain ⟨d, ds, hd⟩ := List.exists_cons_of_ne_nil (hLine (by simp))
      rw [hd, List.getLast?_cons_cons, ← hd] at hc
      exact hLast c hc

theorem trim_line : trim (line ws) = line ws := by
  obtain ⟨hHead, hLast, -⟩ := line_ends hws
  exact trim_eq hHead hLast

end Line

theorem encode_append (cs ds : List Char) : encode (cs ++ ds) = encode cs ++ encode ds :=
  List.flatMap_append

theorem encode_newline : encode ['\n'] = [newline] := rfl

/-- All bytes of a character beyond the ASCII range are beyond it. -/
theorem le_toNat_of_mem_utf8EncodeChar {c : Char} (hc : 127 < c.val.toNat) :
    ∀ b ∈ String.utf8EncodeChar c, 128 ≤ b.toNat := by
  rw [String.utf8EncodeChar.eq_1, if_neg (Nat.not_le.mpr hc)]
  split
  · simp only [List.forall_mem_cons, UInt8.toNat_ofNat']
    exact ⟨by omega, by omega, List.forall_mem_nil _⟩
  · split
    · simp only [List.forall_mem_cons, UInt8.toNat_ofNat']
      exact ⟨by omega, by omega, by omega, List.forall_mem_nil _⟩
    · simp only [List.forall_mem_cons, UInt8.toNat_ofNat']
      exact ⟨by omega, by omega, by omega, by omega, List.forall_mem_nil _⟩

theorem eq_of_newline_mem {c : Char} (h : newline ∈ String.utf8EncodeChar c) : c = '\n' := by
  by_cases hc : 127 < c.val.toNat
  · exact absurd (le_toNat_of_mem_utf8EncodeChar hc _ h) (by decide)
  · rw [String.utf8EncodeChar.eq_1, if_pos (Nat.not_lt.mp hc), List.mem_singleton] at h
    have hByte : 10 = c.val.toNat % 256 := congrArg UInt8.toNat h
    exact Char.ext (UInt32.toNat_inj.mp (show c.val.toNat = 10 by omega))

theorem newline_notMem_encode {cs : List Char} (h : '\n' ∉ cs) : newline ∉ encode cs := by
  intro hMem
  obtain ⟨c, hc, hByte⟩ := List.mem_flatMap.mp hMem
  exact h (eq_of_newline_mem hByte ▸ hc)

theorem nextLine_append {line : List UInt8} (h : newline ∉ line) (rest : List UInt8) :
    nextLine (line ++ newline :: rest) = some (line, rest) := by
  have hPlain : ∀ b ∈ line, (b != newline) = true := fun b hb =>
    bne_iff_ne.mpr fun hEq => h (hEq ▸ hb)
  have hNext : nextLine (line ++ newline :: rest) =
      some ((line ++ newline :: rest).takeWhile (· != newline),
        ((line ++ newline :: rest).dropWhile (· != newline)).drop 1) := by
    cases line <;> rfl
  rw [hNext, List.takeWhile_append_of_pos hPlain, List.dropWhile_append_of_pos hPlain]
  simp

theorem allLines_append {line : List UInt8} (h : newline ∉ line) (rest : List UInt8) :
    allLines (line ++ newline :: rest) = line :: allLines rest := by
  induction line with
  | nil => simp [allLines]
  | cons b line ih =>
    rw [List.mem_cons, not_or] at h
    rw [List.cons_append, allLines, if_neg (by simpa using Ne.symm h.1), ih h.2]

end SoftError.Text
