import Mathlib.Algebra.BigOperators.Ring.List
import Mathlib.Data.Nat.Bitwise
import Mathlib.Tactic.Ring
import SoftError.Circuit.Binary

/-!
# Codes of differences

A code is a run of bytes with the high bit set and one byte without it. It stands for the sum of
its groups of seven bits, each shifted by seven bits more than the one before. If all groups after
the tenth are zero, the word that it is read into is that sum modulo `2 ^ 64`. So a code is read as
the number it stands for exactly if that number is a word, and nothing reports the others.
-/

namespace SoftError.Binary

/-- All bytes but the last one have the high bit set. -/
inductive IsCode : List UInt8 → Prop
  | last {byte : UInt8} : byte.toNat < 128 → IsCode [byte]
  | more {byte : UInt8} {code : List UInt8} :
    128 ≤ byte.toNat → IsCode code → IsCode (byte :: code)

theorem isCode_append {groups : List UInt8} {byte : UInt8}
    (hGroups : ∀ group ∈ groups, 128 ≤ group.toNat) (hByte : byte.toNat < 128) :
    IsCode (groups ++ [byte]) := by
  induction groups with
  | nil => exact .last hByte
  | cons group groups ih =>
    obtain ⟨hGroup, hGroups⟩ := List.forall_mem_cons.mp hGroups
    exact .more hGroup (ih hGroups)

/-- The number that the groups of a code stand for, the lowest group first. -/
def codeSum (code : List UInt8) : Nat :=
  (code.mapIdx fun i byte => byte.toNat % 128 * 2 ^ (7 * i)).sum

theorem codeSum_cons (byte : UInt8) (code : List UInt8) :
    codeSum (byte :: code) = byte.toNat % 128 + 128 * codeSum code := by
  have hTail : (code.mapIdx fun i byte => byte.toNat % 128 * 2 ^ (7 * (i + 1))).sum =
      128 * codeSum code := by
    rw [codeSum, List.mapIdx_eq_zipIdx_map, List.mapIdx_eq_zipIdx_map, ← List.sum_map_mul_left]
    refine congrArg List.sum (List.map_congr_left fun x _ => ?_)
    ring
  rw [codeSum, List.mapIdx_cons, List.sum_cons, hTail, Nat.mul_zero, Nat.pow_zero, Nat.mul_one]

theorem codeSum_cons_mul (byte : UInt8) (code : List UInt8) (i : Nat) :
    codeSum (byte :: code) * 2 ^ (7 * i) =
      byte.toNat % 128 * 2 ^ (7 * i) + codeSum code * 2 ^ (7 * (i + 1)) := by
  rw [codeSum_cons]
  ring

section Group

theorem toNat_group (byte : UInt8) : (byte &&& 0x7f).toUInt64.toNat = byte.toNat % 128 := by
  have hMask : (127 : UInt8).toNat = 2 ^ 7 - 1 := rfl
  rw [UInt8.toNat_toUInt64, UInt8.toNat_and, hMask, Nat.and_two_pow_sub_one_eq_mod]

theorem isLast_iff (byte : UInt8) : byte &&& 0x80 = 0 ↔ byte.toNat < 128 := by
  have hMask : (128 : UInt8).toNat = 2 ^ 7 := rfl
  have hByte := byte.toNat_lt
  have hBit : byte.toNat / 2 ^ 7 % 2 = 0 ↔ byte.toNat < 128 := by omega
  rw [← UInt8.toNat_inj, UInt8.toNat_and, hMask, Nat.and_two_pow,
    Nat.testBit_eq_decide_div_mod_eq]
  simpa using hBit

/-- Bits that are shifted out of the word count for nothing modulo its size. -/
theorem two_pow_mul_mod_or {s word group : Nat} (hs : s ≤ 64) (hWord : word < 2 ^ s) :
    group * 2 ^ s % 2 ^ 64 ||| word = (word + group * 2 ^ s) % 2 ^ 64 := by
  have hSplit : (2 : Nat) ^ 64 = 2 ^ s * 2 ^ (64 - s) := by
    rw [← Nat.pow_add, Nat.add_sub_cancel' hs]
  have hKept : group * 2 ^ s % 2 ^ 64 = 2 ^ s * (group % 2 ^ (64 - s)) := by
    rw [Nat.mul_comm, hSplit, Nat.mul_mod_mul_left]
  have hFits : word + 2 ^ s * (group % 2 ^ (64 - s)) < 2 ^ 64 := by
    have hLess : group % 2 ^ (64 - s) < 2 ^ (64 - s) := Nat.mod_lt _ (Nat.two_pow_pos _)
    calc word + 2 ^ s * (group % 2 ^ (64 - s))
        < 2 ^ s + 2 ^ s * (group % 2 ^ (64 - s)) := by omega
      _ = 2 ^ s * (group % 2 ^ (64 - s) + 1) := by ring
      _ ≤ 2 ^ s * 2 ^ (64 - s) := Nat.mul_le_mul_left _ hLess
      _ = 2 ^ 64 := hSplit.symm
  rw [hKept, ← Nat.two_pow_add_eq_or_of_lt hWord, Nat.add_comm, ← Nat.mod_eq_of_lt hFits, ← hKept,
    Nat.add_mod_mod]

theorem or_shiftLeft {word group : UInt64} {s : Nat} (hWord : word.toNat < 2 ^ s)
    (h : s < 64 ∨ group = 0) :
    word ||| group <<< UInt64.ofNat s = UInt64.ofNat (word.toNat + group.toNat * 2 ^ s) := by
  rcases h with hs | rfl
  · have hShift : (UInt64.ofNat s).toNat % 64 = s := by
      rw [UInt64.toNat_ofNat']
      omega
    rw [← UInt64.toNat_inj, UInt64.toNat_or, UInt64.toNat_shiftLeft, hShift, Nat.shiftLeft_eq,
      Nat.or_comm, two_pow_mul_mod_or hs.le hWord, UInt64.toNat_ofNat']
  · simp

end Group

theorem delta_cons {word : UInt64} {s : Nat} (hWord : word.toNat < 2 ^ s) (byte : UInt8)
    (h : s < 64 ∨ byte.toNat % 128 = 0) (bytes : List UInt8) :
    delta word (UInt64.ofNat s) (byte :: bytes) =
      if byte.toNat < 128 then
        some (UInt64.ofNat (word.toNat + byte.toNat % 128 * 2 ^ s), bytes)
      else
        delta (UInt64.ofNat (word.toNat + byte.toNat % 128 * 2 ^ s)) (UInt64.ofNat (s + 7))
          bytes := by
  have hRead : word ||| (byte &&& 0x7f).toUInt64 <<< UInt64.ofNat s =
      UInt64.ofNat (word.toNat + byte.toNat % 128 * 2 ^ s) := by
    rw [or_shiftLeft hWord (h.imp_right fun hZero => ?_), toNat_group]
    rw [← UInt64.toNat_inj, toNat_group, hZero]
    rfl
  have hNext : UInt64.ofNat (s + 7) = UInt64.ofNat s + 7 := UInt64.ofNat_add s 7
  rw [delta, hRead, hNext]
  simp only [isLast_iff]

/-- Groups from the eleventh on are zero if the sum has at most seventy bits. -/
theorem lt_or_eq_zero_of_mul_lt {group i : Nat} (h : group * 2 ^ (7 * i) < 2 ^ 70) :
    7 * i < 64 ∨ group = 0 := by
  rcases Nat.lt_or_ge i 10 with hi | hi
  · exact .inl (by omega)
  · refine .inr (Nat.eq_zero_of_not_pos fun hPos => ?_)
    have hLe : 2 ^ 70 ≤ group * 2 ^ (7 * i) :=
      (Nat.pow_le_pow_right (by decide) (by omega)).trans (Nat.le_mul_of_pos_left _ hPos)
    omega

/-- What remains of a code is added to the bits read so far. -/
theorem IsCode.delta_append {code : List UInt8} (hCode : IsCode code) {word : UInt64} {i : Nat}
    (hWord : word.toNat < 2 ^ (7 * i)) (hSum : word.toNat + codeSum code * 2 ^ (7 * i) < 2 ^ 70)
    (rest : List UInt8) :
    delta word (UInt64.ofNat (7 * i)) (code ++ rest) =
      some (UInt64.ofNat (word.toNat + codeSum code * 2 ^ (7 * i)), rest) := by
  induction hCode generalizing word i with
  | @last byte hLast =>
    have hByte : codeSum [byte] = byte.toNat % 128 := codeSum_cons byte []
    rw [hByte] at hSum ⊢
    rw [List.singleton_append, delta_cons hWord byte (lt_or_eq_zero_of_mul_lt (by omega)),
      if_pos hLast]
  | @more byte code hMore hCode ih =>
    rw [codeSum_cons_mul, ← Nat.add_assoc] at hSum ⊢
    have hFilled : word.toNat + byte.toNat % 128 * 2 ^ (7 * i) < 2 ^ (7 * (i + 1)) := by
      have hLow : (byte.toNat % 128 + 1) * 2 ^ (7 * i) ≤ 128 * 2 ^ (7 * i) :=
        Nat.mul_le_mul_right _ (by omega)
      rw [Nat.add_mul, Nat.one_mul] at hLow
      rw [Nat.mul_add_one, Nat.pow_add]
      omega
    -- the tenth group may lose its high bits, which the word does not have room for
    have hKept : (UInt64.ofNat (word.toNat + byte.toNat % 128 * 2 ^ (7 * i))).toNat ≤
        word.toNat + byte.toNat % 128 * 2 ^ (7 * i) := by
      rw [UInt64.toNat_ofNat']
      exact Nat.mod_le _ _
    rw [List.cons_append, delta_cons hWord byte (lt_or_eq_zero_of_mul_lt (by omega)),
      if_neg (by omega), ← Nat.mul_add_one, ih (by omega) (by omega), UInt64.ofNat_add,
      UInt64.ofNat_toNat, ← UInt64.ofNat_add]

theorem IsCode.delta_eq_some {code : List UInt8} (hCode : IsCode code)
    (hSum : codeSum code < 2 ^ 70) (rest : List UInt8) :
    delta 0 0 (code ++ rest) = some (UInt64.ofNat (codeSum code), rest) := by
  have hNone : (0 : UInt64).toNat < 2 ^ (7 * 0) := by decide
  have hDelta := hCode.delta_append hNone (by simpa using hSum) rest
  rwa [UInt64.toNat_zero, Nat.zero_add, Nat.mul_zero, Nat.pow_zero, Nat.mul_one] at hDelta

section Extent

variable {word w shift : UInt64} {code bytes rest : List UInt8}

theorem exists_isCode_of_delta (h : delta word shift bytes = some (w, rest)) :
    ∃ code, IsCode code ∧ bytes = code ++ rest := by
  induction bytes generalizing word shift with
  | nil => cases h
  | cons byte bytes ih =>
    rw [delta] at h
    split at h
    · rename_i hLast
      cases h
      exact ⟨[byte], .last ((isLast_iff byte).mp hLast), rfl⟩
    · rename_i hMore
      obtain ⟨code, hCode, rfl⟩ := ih h
      exact ⟨byte :: code, .more (Nat.not_lt.mp (mt (isLast_iff byte).mpr hMore)) hCode, rfl⟩

theorem delta_eq_none_iff : delta word shift bytes = none ↔ ∀ byte ∈ bytes, 128 ≤ byte.toNat := by
  induction bytes generalizing word shift with
  | nil => simp [delta]
  | cons byte bytes ih =>
    rw [delta, List.forall_mem_cons]
    split
    · rename_i hLast
      have hByte := (isLast_iff byte).mp hLast
      exact ⟨fun h => (nomatch h), fun h => by omega⟩
    · rename_i hMore
      have hByte := mt (isLast_iff byte).mpr hMore
      rw [ih, and_iff_right (Nat.not_lt.mp hByte)]

end Extent

section Written

/-- The groups of seven bits of a number, the lowest first. All but the last one have the high
bit set. -/
def deltaCode (n : Nat) : List UInt8 :=
  if n < 128 then [UInt8.ofNat n] else UInt8.ofNat (n % 128 + 128) :: deltaCode (n / 128)

theorem isCode_deltaCode (n : Nat) : IsCode (deltaCode n) ∧ codeSum (deltaCode n) = n := by
  fun_induction deltaCode n with
  | case1 n hSmall =>
    have hByte : (UInt8.ofNat n).toNat = n := UInt8.toNat_ofNat_of_lt' (by change _ < 256; omega)
    refine ⟨.last (hByte.symm ▸ hSmall), ?_⟩
    rw [codeSum_cons, hByte, Nat.mod_eq_of_lt hSmall]
    rfl
  | case2 n hLarge ih =>
    have hByte : (UInt8.ofNat (n % 128 + 128)).toNat = n % 128 + 128 :=
      UInt8.toNat_ofNat_of_lt' (by change _ < 256; omega)
    refine ⟨.more (by omega) ih.1, ?_⟩
    rw [codeSum_cons, hByte, ih.2]
    omega

theorem delta_zero {n : Nat} (hn : n < 2 ^ 64) (rest : List UInt8) :
    delta 0 0 (deltaCode n ++ rest) = some (UInt64.ofNat n, rest) := by
  obtain ⟨hCode, hSum⟩ := isCode_deltaCode n
  rw [hCode.delta_eq_some (by omega), hSum]

end Written

section Read

variable {x : Nat} {bytes rest : List UInt8}

theorem difference_run (bytes : List UInt8) : difference.run bytes =
    (delta 0 0 bytes).elim (.error (.token .endOfInput)) fun x => .ok (x.1.toNat, x.2) := by
  cases hDelta : delta 0 0 bytes with
  | none =>
    simp only [difference, StateT.run_bind, StateT.run_get, pure_bind, hDelta]
    rfl
  | some read =>
    simp only [difference, StateT.run_bind, StateT.run_get, pure_bind, hDelta]
    rfl

theorem difference_eq_ok_iff : difference.run bytes = .ok (x, rest) ↔
    ∃ word, delta 0 0 bytes = some (word, rest) ∧ word.toNat = x := by
  rw [difference_run]
  cases delta 0 0 bytes with
  | none => simp
  | some read => simp [Prod.ext_iff, and_comm]

theorem difference_eq_error_iff {e : FormatError} : difference.run bytes = .error e ↔
    e = .token .endOfInput ∧ delta 0 0 bytes = none := by
  rw [difference_run]
  cases delta 0 0 bytes <;> simp [eq_comm]

/-- A code is read as its sum exactly if that is below `2 ^ 64`, and a sum that takes the whole of
ten groups is cut to 64 bits. An error says that the input ends before a code does. -/
theorem difference_reads_sums (buffer : List UInt8) (offset : Nat) :
    (∀ code, IsCode code → code <+: buffer.drop offset → codeSum code < 2 ^ 64 →
      difference.run (buffer.drop offset) =
        .ok (codeSum code, buffer.drop (offset + code.length))) ∧
      (∀ x rest, difference.run (buffer.drop offset) = .ok (x, rest) →
        ∃ code, IsCode code ∧ code <+: buffer.drop offset ∧
          rest = buffer.drop (offset + code.length) ∧ (x = codeSum code ↔ codeSum code < 2 ^ 64) ∧
          (codeSum code < 2 ^ 70 → x = codeSum code % 2 ^ 64)) ∧
      ∀ e, difference.run (buffer.drop offset) = .error e ↔
        e = .token .endOfInput ∧ ∀ byte ∈ buffer.drop offset, 128 ≤ byte.toNat := by
  refine ⟨fun code hCode hPrefix hFits => ?_, fun x rest h => ?_, fun e => ?_⟩
  · obtain ⟨rest, hEq⟩ := hPrefix
    have hRest : rest = buffer.drop (offset + code.length) := by
      rw [← List.drop_drop, ← hEq, List.drop_left]
    rw [← hEq, ← hRest, difference_eq_ok_iff]
    exact ⟨_, hCode.delta_eq_some (by omega) rest, UInt64.toNat_ofNat_of_lt' hFits⟩
  · obtain ⟨word, hDelta, rfl⟩ := difference_eq_ok_iff.mp h
    obtain ⟨code, hCode, hEq⟩ := exists_isCode_of_delta hDelta
    have hWord : codeSum code < 2 ^ 70 → word.toNat = codeSum code % 2 ^ 64 := by
      intro hSum
      rw [hEq, hCode.delta_eq_some hSum] at hDelta
      obtain ⟨rfl, -⟩ := Prod.mk.inj (Option.some.inj hDelta)
      exact UInt64.toNat_ofNat'
    refine ⟨code, hCode, ⟨rest, hEq.symm⟩, ?_, ⟨fun hSum => hSum ▸ word.toNat_lt, fun hFits => ?_⟩,
      hWord⟩
    · rw [← List.drop_drop, hEq, List.drop_left]
    · rw [hWord (by omega), Nat.mod_eq_of_lt hFits]
  · rw [difference_eq_error_iff, delta_eq_none_iff]

/-- The code of the largest word, which takes ten groups, between two other bytes. -/
def enclosedCode : List UInt8 := [5] ++ deltaCode (2 ^ 64 - 1) ++ [7]

theorem enclosedCode_reads_sum :
    (IsCode (deltaCode (2 ^ 64 - 1)) ∧ deltaCode (2 ^ 64 - 1) <+: enclosedCode.drop 1 ∧
      codeSum (deltaCode (2 ^ 64 - 1)) < 2 ^ 64) ∧
      difference.run (enclosedCode.drop 1) = .ok (2 ^ 64 - 1, [7]) := by
  obtain ⟨hCode, hSum⟩ := isCode_deltaCode (2 ^ 64 - 1)
  have hFits : codeSum (deltaCode (2 ^ 64 - 1)) < 2 ^ 64 := by omega
  have hPrefix : deltaCode (2 ^ 64 - 1) <+: enclosedCode.drop 1 := ⟨[7], rfl⟩
  have hRest : enclosedCode.drop (1 + (deltaCode (2 ^ 64 - 1)).length) = [7] := by
    rw [← List.drop_drop]
    exact List.drop_left
  refine ⟨⟨hCode, hPrefix, hFits⟩, ?_⟩
  rw [(difference_reads_sums enclosedCode 1).1 _ hCode hPrefix hFits, hSum, hRest]

/-- Ten groups for a number that has one bit more than a word. -/
def overlongCode : List UInt8 := 0x82 :: List.replicate 8 0x80 ++ [0x02]

theorem overlongCode_cut :
    IsCode overlongCode ∧ codeSum overlongCode = 2 ^ 64 + 2 ∧
      difference.run overlongCode = .ok (2, []) := by
  have hGroups : ∀ group ∈ 0x82 :: List.replicate 8 (0x80 : UInt8), 128 ≤ group.toNat := by
    rw [List.forall_mem_cons, List.forall_mem_replicate]
    decide
  exact ⟨isCode_append hGroups (by decide), by decide, by decide⟩

end Read

end SoftError.Binary
