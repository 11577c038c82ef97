import SoftError.Formula.Dimacs
import SoftError.Proofs.Outcome
import SoftError.Proofs.Text.Line

/-!
# Written formulas

A written formula is read back as it is, with its empty clauses and repeated literals, if its
literals are signed 32-bit numbers and the number of its clauses fits 64 bits. No other formula
is ever read.
-/

namespace SoftError

/-- The formulas that can be stored: their literals and their length are machine words. -/
def Cnf.IsStorable (f : Cnf) : Prop :=
  f.length < 2 ^ 64 ∧ ∀ c ∈ f, ∀ l ∈ c, Text.InRange 32 l.val

namespace Dimacs

variable {f : Cnf} {c : Clause} {h : Header} {p : Progress}

/-- The words of a written clause. -/
def clauseWords (c : Clause) : List (List Char) :=
  (c.map fun l => Text.writeInt l.val) ++ [['0']]

theorem writeClause_cons (l : Lit) (c : Clause) :
    writeClause (l :: c) = Text.writeInt l.val ++ ' ' :: writeClause c := by
  simp [writeClause]

theorem writeClause_eq (c : Clause) : writeClause c = Text.line (clauseWords c) := by
  induction c with
  | nil => rfl
  | cons l c ih =>
    rw [writeClause_cons, ih]
    cases c <;> rfl

theorem isWord_clauseWords (c : Clause) : ∀ w ∈ clauseWords c, Text.IsWord w := by
  refine List.forall_mem_append.mpr ⟨?_, List.forall_mem_singleton.mpr (by decide)⟩
  exact List.forall_mem_map.mpr fun l _ => Text.isWord_writeInt l.val

theorem exists_head_writeClause (c : Clause) :
    ∃ d cs, writeClause c = d :: cs ∧ (d.isDigit = true ∨ d = '-') := by
  cases c with
  | nil => exact ⟨'0', [], rfl, .inl (by decide)⟩
  | cons l c =>
    obtain ⟨d, ds, hd⟩ := List.exists_cons_of_ne_nil (Text.isWord_writeInt l.val).1
    refine ⟨d, ds ++ ' ' :: writeClause c, ?_, Text.head_writeInt hd⟩
    rw [writeClause_cons, hd, List.cons_append]

/-- A clause is taken for no comment and no header. -/
theorem readText_writeClause (hHeader : p.header = some h) (c : Clause) :
    readText p (writeClause c) = (Text.words (writeClause c)).foldlM (readToken h) p := by
  obtain ⟨d, cs, hd, hDigit⟩ := exists_head_writeClause c
  rw [hd]
  have hComment : d ≠ 'c' := by rintro rfl; exact absurd hDigit (by decide)
  have hSecond : d ≠ 'p' := by rintro rfl; exact absurd hDigit (by decide)
  unfold readText
  split <;> simp_all

theorem readToken_writeInt {l : Lit} (hl : Text.InRange 32 l.val) (hVar : l.var ≤ h.maxVar)
    (p : Progress) :
    readToken h p (Text.writeInt l.val) = .ok { p with current := p.current ++ [l] } := by
  have hVar : ¬ h.maxVar < l.val.natAbs := Nat.not_lt.mpr hVar
  rw [readToken, Text.readSignedWord_writeInt (hl.mono (by decide))]
  simp [l.ne_zero, hVar, Text.truncate_of_inRange hl, Lit.ofInt?]

theorem foldlM_readToken (hc : ∀ l ∈ c, Text.InRange 32 l.val ∧ l.var ≤ h.maxVar)
    (p : Progress) :
    (clauseWords c).foldlM (readToken h) p =
      .ok { p with finished := p.finished ++ [p.current ++ c], current := [] } := by
  induction c generalizing p with
  | nil =>
    rw [List.append_nil]
    rfl
  | cons l c ih =>
    obtain ⟨⟨hl, hVar⟩, hc⟩ := List.forall_mem_cons.mp hc
    have hWords : clauseWords (l :: c) = Text.writeInt l.val :: clauseWords c := rfl
    rw [hWords, List.foldlM_cons, readToken_writeInt hl hVar]
    refine (ih hc _).trans ?_
    rw [List.append_assoc, List.singleton_append]

theorem readLine_writeClause (hHeader : p.header = some h) (hEmpty : p.current = [])
    (hc : ∀ l ∈ c, Text.InRange 32 l.val ∧ l.var ≤ h.maxVar) :
    readLine p (Text.encode (writeClause c)) = .ok { p with finished := p.finished ++ [c] } := by
  have hTrim : Text.trim (writeClause c) = writeClause c := by
    rw [writeClause_eq, Text.trim_line (isWord_clauseWords c)]
  rw [readLine, Text.decode_encode]
  dsimp only
  rw [hTrim, readText_writeClause hHeader, writeClause_eq, Text.words_line (isWord_clauseWords c),
    foldlM_readToken hc, hEmpty]
  rfl

theorem foldlM_readLine (hHeader : p.header = some h) (hEmpty : p.current = [])
    (hf : ∀ c ∈ f, ∀ l ∈ c, Text.InRange 32 l.val ∧ l.var ≤ h.maxVar) :
    (f.map fun c => Text.encode (writeClause c)).foldlM readLine p =
      .ok { p with finished := p.finished ++ f } := by
  induction f generalizing p with
  | nil =>
    rw [List.append_nil]
    rfl
  | cons c f ih =>
    obtain ⟨hc, hf⟩ := List.forall_mem_cons.mp hf
    rw [List.map_cons, List.foldlM_cons, readLine_writeClause hHeader hEmpty hc]
    refine (ih (p := { p with finished := p.finished ++ [c] }) hHeader hEmpty hf).trans ?_
    rw [List.append_assoc, List.singleton_append]

def headerWords (f : Cnf) : List (List Char) :=
  [['p'], ['c', 'n', 'f'], Text.writeNat f.maxVar, Text.writeNat f.length]

theorem isWord_headerWords (f : Cnf) : ∀ w ∈ headerWords f, Text.IsWord w := by
  simp only [headerWords, List.forall_mem_cons]
  exact ⟨by decide, by decide, Text.isWord_writeNat _, Text.isWord_writeNat _,
    List.forall_mem_nil _⟩

theorem write_eq (f : Cnf) : write f = Text.line (headerWords f) ++ '\n' :: writeClauses f := by
  have hStart : "p cnf ".toList = ['p', ' ', 'c', 'n', 'f', ' '] := rfl
  change "p cnf ".toList ++ _ ++ _ ++ _ ++ _ ++ _ = _
  rw [hStart]
  simp [headerWords, Text.line]

theorem allLines_writeClauses (f : Cnf) :
    Text.allLines (Text.encode (writeClauses f)) =
      f.map fun c => Text.encode (writeClause c) := by
  induction f with
  | nil => rfl
  | cons c f ih =>
    have hPlain : '\n' ∉ writeClause c :=
      writeClause_eq c ▸ Text.newline_notMem_line (isWord_clauseWords c)
    have hCons : writeClauses (c :: f) = writeClause c ++ ['\n'] ++ writeClauses f := rfl
    rw [hCons, Text.encode_append, Text.encode_append, Text.encode_newline, List.append_assoc,
      List.singleton_append, Text.allLines_append (Text.newline_notMem_encode hPlain), ih,
      List.map_cons]

theorem allLines_write (f : Cnf) :
    Text.allLines (Text.encode (write f)) =
      Text.encode (Text.line (headerWords f)) :: f.map fun c => Text.encode (writeClause c) := by
  have hPlain := Text.newline_notMem_line (isWord_headerWords f)
  rw [write_eq, ← List.singleton_append, Text.encode_append, Text.encode_append,
    Text.encode_newline, List.singleton_append,
    Text.allLines_append (Text.newline_notMem_encode hPlain), allLines_writeClauses]

theorem readLine_headerWords (hVar : f.maxVar < 2 ^ 32) (hLength : f.length < 2 ^ 64) :
    readLine ⟨none, [], []⟩ (Text.encode (Text.line (headerWords f))) =
      .ok ⟨some ⟨f.maxVar, f.length⟩, [], []⟩ := by
  have hFormat : "cnf".toList = ['c', 'n', 'f'] := rfl
  have hHeader : readHeader (Text.line (headerWords f)) = .ok ⟨f.maxVar, f.length⟩ := by
    rw [readHeader, Text.words_line (isWord_headerWords f)]
    simp [headerWords, hFormat, Text.readWord_writeNat hVar, Text.readWord_writeNat hLength]
  have hText : readText ⟨none, [], []⟩ (Text.line (headerWords f)) = do
      return ⟨some (← readHeader (Text.line (headerWords f))), [], []⟩ := rfl
  rw [readLine, Text.decode_encode]
  dsimp only
  rw [Text.trim_line (isWord_headerWords f), hText, hHeader]
  rfl

theorem read_write (hf : f.IsStorable) : read (Text.encode (write f)) = .ok f := by
  obtain ⟨hLength, hLits⟩ := hf
  have hVar : f.maxVar ≤ 2 ^ 31 := by
    refine Cnf.maxVar_le_iff.mpr fun c hc l hl => ?_
    obtain ⟨hLow, hHigh⟩ := hLits c hc l hl
    rw [Lit.var]
    omega
  have hClauses : ∀ c ∈ f, ∀ l ∈ c, Text.InRange 32 l.val ∧ l.var ≤ f.maxVar := fun c hc l hl =>
    ⟨hLits c hc l hl, Cnf.maxVar_le_iff.mp (Nat.le_refl _) c hc l hl⟩
  have hLines := foldlM_readLine (p := ⟨some ⟨f.maxVar, f.length⟩, [], []⟩) rfl rfl hClauses
  rw [read, allLines_write, List.foldlM_cons, readLine_headerWords (by omega) hLength]
  simp [bind, Except.bind, hLines]

section Inversion

variable {q : Progress} {line token : List Char}

/-- What a line is for. -/
inductive LineKind where
  | blank
  | comment
  | header
  | clauses
deriving DecidableEq

/-- The kind of a line without the blanks at its ends. -/
def LineKind.ofText : List Char → LineKind
  | [] => blank
  | 'c' :: _ => comment
  | 'p' :: _ => header
  | _ => clauses

theorem readHeader_eq_ok (hRead : readHeader line = .ok h) :
    ∃ m n, Text.words line = [['p'], "cnf".toList, m, n] ∧
      Text.readWord 32 m = some h.maxVar ∧ Text.readWord 64 n = some h.clauses := by
  unfold readHeader at hRead
  split at hRead
  · rename_i maxVar clauses hWords
    split at hRead
    · rename_i hMaxVar hClauses
      split at hRead
      · rename_i hFormat
        cases hRead
        exact ⟨maxVar, clauses, by rw [hWords, hFormat.1, hFormat.2], hMaxVar, hClauses⟩
      · cases hRead
    · cases hRead
  · cases hRead

/-- A token ends the clause at hand or adds a literal to it, cut to 32 bits. -/
theorem readToken_eq_ok (hRead : readToken h p token = .ok q) :
    ∃ value, Text.readSignedWord 64 token = some value ∧ value.natAbs ≤ h.maxVar ∧
      (value = 0 ∧ q = { p with finished := p.finished ++ [p.current], current := [] } ∨
        ∃ l : Lit, l.val = Text.truncate 32 value ∧
          q = { p with current := p.current ++ [l] }) := by
  unfold readToken at hRead
  split at hRead
  · cases hRead
  · rename_i value hValue
    refine ⟨value, hValue, ?_⟩
    split at hRead
    · rename_i hZero
      cases hRead
      exact ⟨by simp [hZero], .inl ⟨hZero, rfl⟩⟩
    · split at hRead
      · cases hRead
      · rename_i hRange
        refine ⟨Nat.not_lt.mp hRange, .inr ?_⟩
        split at hRead
        · cases hRead
        · rename_i l hLit
          cases hRead
          rw [Lit.ofInt?] at hLit
          split at hLit
          · cases hLit
          · cases hLit
            exact ⟨_, rfl, rfl⟩

/-- A line is skipped, is the first header, or adds its tokens after a header. -/
theorem readText_eq_ok (hRead : readText p line = .ok q) :
    (LineKind.ofText line = .blank ∨ LineKind.ofText line = .comment) ∧ q = p ∨
      (LineKind.ofText line = .header ∧ p.header = none ∧
        ∃ h, readHeader line = .ok h ∧ q = { p with header := some h }) ∨
      (LineKind.ofText line = .clauses ∧
        ∃ h, p.header = some h ∧ (Text.words line).foldlM (readToken h) p = .ok q) := by
  unfold readText at hRead
  split at hRead
  · cases hRead
    exact .inl ⟨.inl rfl, rfl⟩
  · cases hRead
    exact .inl ⟨.inr rfl, rfl⟩
  · cases hRead
  · rename_i hNone
    obtain ⟨h, hHeader, hRead⟩ := exists_of_bind_eq_ok hRead
    cases hRead
    exact .inr (.inl ⟨rfl, hNone, h, hHeader, rfl⟩)
  · cases hRead
  · rename_i h hEmpty hComment hHeader hSome
    refine .inr (.inr ⟨?_, h, hSome, hRead⟩)
    unfold LineKind.ofText
    split
    · exact absurd rfl hEmpty
    · exact absurd rfl (hComment _)
    · exact absurd rfl (hHeader _)
    · rfl

theorem readLine_eq_ok {bytes : List UInt8} (hRead : readLine p bytes = .ok q) :
    ∃ text, Text.decode bytes = some text ∧ readText p (Text.trim text) = .ok q := by
  unfold readLine at hRead
  split at hRead
  · cases hRead
  · exact ⟨_, ‹_›, hRead⟩

/-- All clauses are finished, and they are as many as announced. -/
theorem read_eq_ok {bytes : List UInt8} (hRead : read bytes = .ok f) :
    ∃ h, (Text.allLines bytes).foldlM readLine ⟨none, [], []⟩ = .ok ⟨some h, f, []⟩ ∧
      f.length = h.clauses := by
  unfold read at hRead
  obtain ⟨p, hLines, hRead⟩ := exists_of_bind_eq_ok hRead
  split at hRead
  · cases hRead
  · rename_i h hHeader
    split at hRead
    · cases hRead
    · rename_i hCurrent
      split at hRead
      · cases hRead
      · rename_i hCount
        cases hRead
        rw [Classical.not_not] at hCurrent hCount
        exact ⟨h, by rw [hLines, ← hHeader, ← hCurrent], hCount⟩

end Inversion

section Storable

structure Progress.IsStorable (p : Progress) : Prop where
  header : ∀ h, p.header = some h → h.clauses < 2 ^ 64
  finished : ∀ c ∈ p.finished, ∀ l ∈ c, Text.InRange 32 l.val
  current : ∀ l ∈ p.current, Text.InRange 32 l.val

variable {q : Progress} {token : List Char}

theorem Progress.IsStorable.readToken (hp : p.IsStorable)
    (hRead : Dimacs.readToken h p token = .ok q) : q.IsStorable := by
  obtain ⟨value, _, _, ⟨_, rfl⟩ | ⟨l, hl, rfl⟩⟩ := readToken_eq_ok hRead
  · refine ⟨hp.header, fun c hc => ?_, List.forall_mem_nil _⟩
    rcases List.mem_append.mp hc with hc | hc
    · exact hp.finished c hc
    · rw [List.mem_singleton.mp hc]
      exact hp.current
  · have hRange : Text.InRange 32 l.val := hl ▸ Text.inRange_truncate 31 value
    exact ⟨hp.header, hp.finished,
      List.forall_mem_append.mpr ⟨hp.current, List.forall_mem_singleton.mpr hRange⟩⟩

theorem Progress.IsStorable.readLine {bytes : List UInt8} (hp : p.IsStorable)
    (hRead : Dimacs.readLine p bytes = .ok q) : q.IsStorable := by
  obtain ⟨text, _, hText⟩ := readLine_eq_ok hRead
  obtain ⟨_, rfl⟩ | ⟨_, _, h, hHeader, rfl⟩ | ⟨_, h, _, hWords⟩ := readText_eq_ok hText
  · exact hp
  · refine ⟨fun h' hh' => ?_, hp.finished, hp.current⟩
    obtain rfl : h = h' := Option.some.inj hh'
    obtain ⟨_, _, _, _, hClauses⟩ := readHeader_eq_ok hHeader
    exact Text.lt_of_readWord hClauses
  · exact of_foldlM (P := fun _ => IsStorable) (fun _ _ _ _ hb => hb.readToken) hp hWords

/-- Whatever the text is, the formula read can be stored. -/
theorem isStorable_of_read {bytes : List UInt8} (hRead : read bytes = .ok f) :
    f.IsStorable := by
  obtain ⟨h, hLines, hCount⟩ := read_eq_ok hRead
  have hStart : Progress.IsStorable ⟨none, [], []⟩ :=
    ⟨fun _ h => (nomatch h), List.forall_mem_nil _, List.forall_mem_nil _⟩
  have hEnd := of_foldlM (P := fun _ => Progress.IsStorable) (fun _ _ _ _ hb => hb.readLine)
    hStart hLines
  exact ⟨hCount ▸ hEnd.header h rfl, hEnd.finished⟩

end Storable

/-- Reading undoes writing, for the formulas that can be stored and for no others. -/
theorem read_write_eq_ok_iff (f : Cnf) :
    read (Text.encode (write f)) = .ok f ↔
      f.length < 2 ^ 64 ∧ ∀ c ∈ f, ∀ l ∈ c, -2 ^ 31 ≤ l.val ∧ l.val < 2 ^ 31 :=
  ⟨isStorable_of_read, read_write⟩

end Dimacs

end SoftError
