import SoftError.Proofs.Formula.Dimacs

/-!
# Accepted texts

What an accepted text says can be told line by line, without a reader: one line is the header,
and the words of the lines that are neither blank nor a comment nor the header are integers. The
formula has these integers, cut to 32 bits, so it has all of them exactly if each one fits.
-/

namespace SoftError

/-- The integers of a formula, with a zero after each clause. -/
def Cnf.integers (f : Cnf) : List Int := f.flatMap fun c => c.map Lit.val ++ [0]

namespace Dimacs

variable {f : Cnf} {h : Header} {p q : Progress} {lines : List (List Char)}
  {line token : List Char} {ints : List Int}

def kind (line : List Char) : LineKind := .ofText (Text.trim line)

/-- The line announces the largest variable and the number of clauses. -/
def IsHeader (line : List Char) (h : Header) : Prop :=
  kind line = .header ∧ ∃ m n, Text.words line = [['p'], "cnf".toList, m, n] ∧
    Text.readNat m = some h.maxVar ∧ Text.readNat n = some h.clauses

/-- There is exactly one header, and no clauses stand before it. -/
def Announces (lines : List (List Char)) (h : Header) : Prop :=
  ∃ before line after, lines = before ++ line :: after ∧ IsHeader line h ∧
    (∀ l ∈ before, kind l ≠ .header ∧ kind l ≠ .clauses) ∧ ∀ l ∈ after, kind l ≠ .header

/-- The words of all lines with clauses. -/
def bodyWords (lines : List (List Char)) : List (List Char) :=
  (lines.filter fun l => kind l = .clauses).flatMap Text.words

theorem bodyWords_snoc (lines : List (List Char)) (line : List Char) :
    bodyWords (lines ++ [line]) =
      bodyWords lines ++ if kind line = .clauses then Text.words line else [] := by
  rw [bodyWords, List.filter_append, List.flatMap_append, bodyWords, List.filter_singleton]
  split <;> simp_all

theorem Announces.snoc (hLines : Announces lines h) (hLine : kind line ≠ .header) :
    Announces (lines ++ [line]) h := by
  obtain ⟨before, header, after, rfl, hHeader, hBefore, hAfter⟩ := hLines
  refine ⟨before, header, after ++ [line], by simp, hHeader, hBefore, ?_⟩
  exact List.forall_mem_append.mpr ⟨hAfter, List.forall_mem_singleton.mpr hLine⟩

/-- The integers of what has been read so far. -/
def Progress.integers (p : Progress) : List Int := p.finished.integers ++ p.current.map Lit.val

theorem integers_readToken (hRead : readToken h p token = .ok q) :
    q.header = p.header ∧ ∃ i, Text.readInt token = some i ∧ i.natAbs ≤ h.maxVar ∧
      q.integers = p.integers ++ [Text.truncate 32 i] := by
  obtain ⟨i, hWord, hRange, ⟨rfl, rfl⟩ | ⟨l, hl, rfl⟩⟩ := readToken_eq_ok hRead
  · refine ⟨rfl, 0, (Option.filter_eq_some_iff.mp hWord).1, hRange, ?_⟩
    have hZero : Text.truncate 32 0 = 0 := rfl
    simp [Progress.integers, Cnf.integers, hZero]
  · refine ⟨rfl, i, (Option.filter_eq_some_iff.mp hWord).1, hRange, ?_⟩
    simp [Progress.integers, hl]

/-- The tokens of a line are integers within the announced range. -/
theorem integers_foldlM_readToken {ws : List (List Char)}
    (hRead : ws.foldlM (readToken h) p = .ok q) :
    q.header = p.header ∧ ∃ ints : List Int, ws.map Text.readInt = ints.map some ∧
      (∀ i ∈ ints, i.natAbs ≤ h.maxVar) ∧
      q.integers = p.integers ++ ints.map (Text.truncate 32) := by
  refine of_foldlM (P := fun ws q => q.header = p.header ∧ ∃ ints : List Int,
    ws.map Text.readInt = ints.map some ∧ (∀ i ∈ ints, i.natAbs ≤ h.maxVar) ∧
      q.integers = p.integers ++ ints.map (Text.truncate 32)) ?_ ?_ hRead
  · rintro ws q w q' ⟨hHeader, ints, hWords, hRange, hInts⟩ hToken
    obtain ⟨hHeader', i, hi, hMax, hNew⟩ := integers_readToken hToken
    refine ⟨hHeader'.trans hHeader, ints ++ [i], by simp [hWords, hi], ?_, ?_⟩
    · exact List.forall_mem_append.mpr ⟨hRange, List.forall_mem_singleton.mpr hMax⟩
    · simp [hNew, hInts]
  · exact ⟨rfl, [], rfl, List.forall_mem_nil _, (List.append_nil _).symm⟩

/-- What has been read so far is what the lines say. -/
structure Progress.Tells (p : Progress) (lines : List (List Char)) (ints : List Int) : Prop where
  body : (bodyWords lines).map Text.readInt = ints.map some
  integers : p.integers = ints.map (Text.truncate 32)
  unheaded : p.header = none → ∀ l ∈ lines, kind l ≠ .header ∧ kind l ≠ .clauses
  headed : ∀ h, p.header = some h → Announces lines h ∧ ∀ i ∈ ints, i.natAbs ≤ h.maxVar

namespace Progress.Tells

theorem skip (hp : p.Tells lines ints) (hHeader : kind line ≠ .header)
    (hClauses : kind line ≠ .clauses) : p.Tells (lines ++ [line]) ints where
  body := by
    rw [bodyWords_snoc, if_neg hClauses, List.append_nil]
    exact hp.body
  integers := hp.integers
  unheaded hNone := List.forall_mem_append.mpr
    ⟨hp.unheaded hNone, List.forall_mem_singleton.mpr ⟨hHeader, hClauses⟩⟩
  headed h hSome := ⟨(hp.headed h hSome).1.snoc hHeader, (hp.headed h hSome).2⟩

theorem header (hp : p.Tells lines ints) (hNone : p.header = none) (hLine : IsHeader line h) :
    { p with header := some h }.Tells (lines ++ [line]) ints := by
  have hClauses : kind line ≠ .clauses := by
    rw [hLine.1]
    decide
  have hEmpty : ints = [] := by
    have hWords : bodyWords lines = [] := by
      have hFilter : lines.filter (fun l => kind l = .clauses) = [] := by
        refine List.filter_eq_nil_iff.mpr fun l hl => ?_
        rw [decide_eq_true_eq]
        exact (hp.unheaded hNone l hl).2
      rw [bodyWords, hFilter, List.flatMap_nil]
    have hBody := hp.body
    rw [hWords] at hBody
    exact List.map_eq_nil_iff.mp hBody.symm
  refine ⟨?_, hp.integers, fun h => (nomatch h), fun h' hh' => ?_⟩
  · rw [bodyWords_snoc, if_neg hClauses, List.append_nil]
    exact hp.body
  · obtain rfl : h = h' := Option.some.inj hh'
    rw [hEmpty]
    exact ⟨⟨lines, line, [], rfl, hLine, hp.unheaded hNone, List.forall_mem_nil _⟩,
      List.forall_mem_nil _⟩

theorem clauses (hp : p.Tells lines ints) (hSome : p.header = some h)
    (hLine : kind line = .clauses)
    (hRead : (Text.words line).foldlM (readToken h) p = .ok q) :
    ∃ more, q.Tells (lines ++ [line]) (ints ++ more) := by
  obtain ⟨hHeader, more, hWords, hRange, hInts⟩ := integers_foldlM_readToken hRead
  obtain ⟨hAnnounces, hOld⟩ := hp.headed h hSome
  rw [hSome] at hHeader
  refine ⟨more, ?_, ?_, fun hNone => ?_, fun h' hh' => ?_⟩
  · rw [bodyWords_snoc, if_pos hLine, List.map_append, hp.body, hWords, List.map_append]
  · rw [hInts, hp.integers, List.map_append]
  · rw [hHeader] at hNone
    cases hNone
  · obtain rfl : h = h' := Option.some.inj (hHeader.symm.trans hh')
    exact ⟨hAnnounces.snoc (by rw [hLine]; decide), List.forall_mem_append.mpr ⟨hOld, hRange⟩⟩

theorem readText (hp : p.Tells lines ints) (hRead : Dimacs.readText p (Text.trim line) = .ok q) :
    ∃ more, q.Tells (lines ++ [line]) (ints ++ more) := by
  obtain ⟨hKind, rfl⟩ | ⟨hKind, hNone, h, hHeader, rfl⟩ | ⟨hKind, h, hSome, hWords⟩ :=
    readText_eq_ok hRead
  · refine ⟨[], (List.append_nil ints).symm ▸ hp.skip ?_ ?_⟩
    · rcases hKind with hKind | hKind <;> rw [kind, hKind] <;> decide
    · rcases hKind with hKind | hKind <;> rw [kind, hKind] <;> decide
  · obtain ⟨m, n, hWords, hMaxVar, hClauses⟩ := readHeader_eq_ok hHeader
    rw [Text.words_trim] at hWords
    refine ⟨[], (List.append_nil ints).symm ▸ hp.header hNone ⟨hKind, m, n, hWords, ?_, ?_⟩⟩
    · exact (Option.filter_eq_some_iff.mp hMaxVar).1
    · exact (Option.filter_eq_some_iff.mp hClauses).1
  · rw [Text.words_trim] at hWords
    exact hp.clauses hSome hKind hWords

end Progress.Tells

/-- The whole text, decoded line by line. -/
theorem tells_of_foldlM_readLine {raw : List (List UInt8)}
    (hRead : raw.foldlM readLine ⟨none, [], []⟩ = .ok q) :
    ∃ lines ints, raw.map Text.decode = lines.map some ∧ q.Tells lines ints := by
  refine of_foldlM (P := fun raw q => ∃ lines ints,
    raw.map Text.decode = lines.map some ∧ q.Tells lines ints) ?_ ?_ hRead
  · rintro raw p bytes q ⟨lines, ints, hRaw, hTells⟩ hLine
    obtain ⟨line, hDecode, hText⟩ := readLine_eq_ok hLine
    obtain ⟨more, hMore⟩ := hTells.readText hText
    exact ⟨lines ++ [line], ints ++ more, by simp [hRaw, hDecode], hMore⟩
  · exact ⟨[], [], rfl, rfl, rfl, fun _ => List.forall_mem_nil _, fun _ h => (nomatch h)⟩

theorem mem_integers {c : Clause} {l : Lit} (hc : c ∈ f) (hl : l ∈ c) : l.val ∈ f.integers :=
  List.mem_flatMap.mpr ⟨c, hc, List.mem_append_left _ (List.mem_map_of_mem hl)⟩

theorem map_truncate_eq_self_iff :
    ints.map (Text.truncate 32) = ints ↔ ∀ i ∈ ints, Text.InRange 32 i := by
  conv_lhs => rhs; rw [← List.map_id ints]
  rw [List.map_inj_left]
  refine forall₂_congr fun i _ => ⟨fun hEq => ?_, fun hi => Text.truncate_of_inRange hi⟩
  rw [← id_eq (a := i), ← hEq]
  exact Text.inRange_truncate 31 i

/-- An accepted text has one header, before all clauses, and announces as many clauses as the
formula has and variables as large as its own. The formula has the integers of the text, each cut
to 32 bits, which are the same integers exactly if all of them fit. -/
theorem read_keeps_integers {bytes : List UInt8} (hRead : read bytes = .ok f) :
    ∃ lines h ints, (Text.allLines bytes).map Text.decode = lines.map some ∧
      Announces lines h ∧ f.length = h.clauses ∧ (∀ c ∈ f, ∀ l ∈ c, l.var ≤ h.maxVar) ∧
      (bodyWords lines).map Text.readInt = ints.map some ∧
      f.integers = ints.map (Text.truncate 32) ∧
      (f.integers = ints ↔ ∀ i ∈ ints, -2 ^ 31 ≤ i ∧ i < 2 ^ 31) := by
  obtain ⟨h, hLines, hCount⟩ := read_eq_ok hRead
  obtain ⟨lines, ints, hDecode, hTells⟩ := tells_of_foldlM_readLine hLines
  obtain ⟨hAnnounces, hRange⟩ := hTells.headed h rfl
  have hInts : f.integers = ints.map (Text.truncate 32) := by
    rw [← hTells.integers]
    exact (List.append_nil _).symm
  refine ⟨lines, h, ints, hDecode, hAnnounces, hCount, fun c hc l hl => ?_, hTells.body, hInts, ?_⟩
  · have hMem := mem_integers hc hl
    rw [hInts] at hMem
    obtain ⟨i, hi, hVal⟩ := List.mem_map.mp hMem
    rw [Lit.var, ← hVal]
    exact (Text.natAbs_truncate_le 31 i).trans (hRange i hi)
  · rw [hInts]
    exact map_truncate_eq_self_iff

/-- The clauses span and share lines, between comments. -/
def spreadText : List UInt8 :=
  Text.encode "c first\n p  cnf 4 3\n\n1 -2\nc second\n\t0 3 0 +04\n -1 0".toList

theorem spreadText_keeps_integers :
    read spreadText = .ok [[1, -2], [3], [4, -1]] ∧
      ∃ lines h, (Text.allLines spreadText).map Text.decode = lines.map some ∧
        Announces lines h ∧ h.clauses = 3 ∧
        (bodyWords lines).map Text.readInt =
          (Cnf.integers [[1, -2], [3], [4, -1]]).map some := by
  have hRead : read spreadText = .ok [[1, -2], [3], [4, -1]] := by decide +kernel
  obtain ⟨lines, h, ints, hDecode, hAnnounces, hCount, -, hBody, -, hIff⟩ :=
    read_keeps_integers hRead
  have hLines : (Text.allLines spreadText).map Text.decode =
      ["c first".toList, " p  cnf 4 3".toList, [], "1 -2".toList, "c second".toList,
        "\t0 3 0 +04".toList, " -1 0".toList].map some := by decide +kernel
  obtain rfl := List.map_injective_iff.mpr (Option.some_injective _) (hDecode.symm.trans hLines)
  have hInts : ints = [1, -2, 0, 3, 0, 4, -1, 0] := by
    refine List.map_injective_iff.mpr (Option.some_injective _) (hBody.symm.trans ?_)
    decide +kernel
  have hFits : ∀ i ∈ ints, -2 ^ 31 ≤ i ∧ i < 2 ^ 31 := by
    rw [hInts]
    decide
  exact ⟨hRead, _, h, hDecode, hAnnounces, hCount.symm, by rw [hIff.mpr hFits, hBody]⟩

/-- The literal is within the announced range, but no signed 32-bit number. -/
def hugeText : List UInt8 := Text.encode "p cnf 4294967295 1\n4294967295 0\n".toList

theorem hugeText_read :
    ∃ lines, (Text.allLines hugeText).map Text.decode = lines.map some ∧
      (bodyWords lines).map Text.readInt = [some 4294967295, some 0] ∧
      read hugeText = .ok [[.top]] ∧ Cnf.integers [[.top]] = [-1, 0] :=
  ⟨["p cnf 4294967295 1".toList, "4294967295 0".toList], by decide +kernel, by decide +kernel,
    by decide +kernel, by decide +kernel⟩

end Dimacs

end SoftError
