import SoftError.Circuit.Ascii
import SoftError.Proofs.Circuit.Deltas
import SoftError.Proofs.Circuit.Reading

/-!
# Written circuits

A circuit has a textual form, and a binary form if its variables are numbered in the order of
inputs, latches and gates. Both are read back as the circuit they were written from, whatever
follows them.
-/

namespace SoftError

namespace Netlist

variable {n : Netlist}

def header (n : Netlist) : Header :=
  ⟨n.maxVar, n.inputs.length, n.latches.length, n.outputs.length, n.gates.length⟩

/-- The numbering that the binary form does not write down. -/
structure Numbered (n : Netlist) : Prop where
  inputs : n.inputs = (List.range' 1 n.inputs.length).map Signal.ofVar
  latches : n.latches.map Latch.signal =
    (List.range' (n.inputs.length + 1) n.latches.length).map Signal.ofVar
  gates : n.gates.map Gate.out =
    (List.range' (n.inputs.length + n.latches.length + 1) n.gates.length).map Signal.ofVar
  fanins : ∀ g ∈ n.gates, g.right.code ≤ g.left.code ∧ g.left.code < g.out.code
  maxVar : n.maxVar = n.inputs.length + n.latches.length + n.gates.length

namespace WellFormed

variable {s : Signal}

theorem maxVar_lt (h : n.WellFormed) : n.maxVar < 2 ^ 31 :=
  Nat.lt_of_le_of_lt h.maxVar_le (by decide)

theorem code_lt_of_definitions (h : n.WellFormed) (hs : s ∈ n.definitions) : s.code < 2 ^ 64 := by
  have hVar := h.var_le s hs
  have hMax := h.maxVar_lt
  rw [Signal.var] at hVar
  omega

theorem two_le_code (h : n.WellFormed) (hs : s ∈ n.definitions) : 2 ≤ s.code := by
  have hVar := h.var_ne_zero s hs
  rw [Signal.var] at hVar
  omega

theorem code_lt_of_uses (h : n.WellFormed) (hs : s ∈ n.uses) : s.code < 2 ^ 64 := by
  have hVar : s.var ≤ n.maxVar := by
    rcases h.defined s hs with hZero | hDefined
    · omega
    · obtain ⟨t, ht, hEq⟩ := List.mem_map.mp hDefined
      exact hEq ▸ h.var_le t ht
  have hMax := h.maxVar_lt
  rw [Signal.var] at hVar
  omega

/-- Distinct variables of the range are as many as it has at most. -/
theorem length_le (h : n.WellFormed) :
    n.inputs.length + n.latches.length + n.gates.length ≤ n.maxVar := by
  have hRange : n.definitions.map Signal.var ⊆ List.range' 1 n.maxVar := by
    refine List.forall_mem_map.mpr fun s hs => List.mem_range'_1.mpr ?_
    have hZero := h.var_ne_zero s hs
    have hLe := h.var_le s hs
    omega
  have hLength := (List.subperm_of_subset h.distinct hRange).length_le
  simpa [definitions, Nat.add_assoc] using hLength

theorem finds_header (h : n.WellFormed) (hOutputs : n.outputs.length < 2 ^ 64) {format : List Char}
    (hFormat : format = ['a', 'a', 'g'] ∨ format = ['a', 'i', 'g']) :
    Reader.header.Finds (Reader.headerLine format n.header) n.header := by
  have hMax := h.maxVar_lt
  have hLength := h.length_le
  apply Reader.finds_header hFormat
  all_goals
    dsimp only [header]
    omega

end WellFormed

end Netlist

theorem Reader.reset_written {c : Circuit} (explicit : Bool) {l : Latch} (hl : l ∈ c.latches) :
    reset l.signal ((resetCode? explicit l).map Text.writeNat) = pure l.reset :=
  have hDefined := c.latch_mem_definitions hl
  reset_resetCode? explicit (c.wellFormed.code_lt_of_definitions hDefined)
    (c.wellFormed.two_le_code hDefined)

namespace Ascii

open Reader

variable {c : Circuit}

def writeSignal (s : Signal) : List UInt8 := numbersLine [s.code]

def writeLatch (explicit : Latch → Bool) (l : Latch) : List UInt8 :=
  numbersLine (l.signal.code :: l.next.code :: (resetCode? (explicit l) l).toList)

def writeGate (g : Gate) : List UInt8 := numbersLine [g.out.code, g.left.code, g.right.code]

/-- The textual form. A low latch has its reset value written if it is to be explicit. -/
def write (explicit : Latch → Bool) (n : Netlist) : List UInt8 :=
  headerLine ['a', 'a', 'g'] n.header ++ (n.inputs.flatMap writeSignal ++
    (n.latches.flatMap (writeLatch explicit) ++
      (n.outputs.flatMap writeSignal ++ n.gates.flatMap writeGate)))

theorem finds_input {s : Signal} (hs : s ∈ c.inputs) : input.Finds (writeSignal s) s := by
  have hCode := c.wellFormed.code_lt_of_definitions (c.input_mem_definitions hs)
  refine (finds_soleSignal .input hCode).bind_pure ?_
  rw [c.input_plain hs]
  rfl

theorem finds_latch (explicit : Latch → Bool) {l : Latch} (hl : l ∈ c.latches) :
    latch.Finds (writeLatch explicit l) l := by
  have hCode := c.wellFormed.code_lt_of_definitions (c.latch_mem_definitions hl)
  have hNext := c.wellFormed.code_lt_of_uses (c.next_mem_uses hl)
  have hReset := reset_written (explicit l) hl
  refine (finds_numbers _).bind_pure ?_
  -- the reader tells the lines apart by the number of their words
  cases hWord : resetCode? (explicit l) l with
  | none =>
    rw [hWord, Option.map_none] at hReset
    simp [signal_writeNat hCode, signal_writeNat hNext, c.latch_plain hl, hReset]
  | some r =>
    rw [hWord, Option.map_some] at hReset
    simp [signal_writeNat hCode, signal_writeNat hNext, c.latch_plain hl, hReset]

theorem finds_gate {g : Gate} (hg : g ∈ c.gates) : gate.Finds (writeGate g) g := by
  have hOut := c.wellFormed.code_lt_of_definitions (c.gate_mem_definitions hg)
  have hLeft := c.wellFormed.code_lt_of_uses (c.fanin_mem_uses hg (.inl rfl))
  have hRight := c.wellFormed.code_lt_of_uses (c.fanin_mem_uses hg (.inr rfl))
  refine (finds_numbers _).bind_pure ?_
  simp [signal_writeNat hOut, signal_writeNat hLeft, signal_writeNat hRight,
    c.gate_plain hg]

theorem finds_output {s : Signal} (hs : s ∈ c.outputs) :
    (soleSignal .output).Finds (writeSignal s) s :=
  finds_soleSignal .output (c.wellFormed.code_lt_of_uses (c.output_mem_uses hs))

theorem finds_netlist (explicit : Latch → Bool) (hOutputs : c.outputs.length < 2 ^ 64) :
    netlist.Finds (write explicit c.toNetlist) c.toNetlist :=
  (c.wellFormed.finds_header hOutputs (.inl rfl)).bind <|
    (finds_times fun _ => finds_input).bind <|
    (finds_times fun _ => finds_latch explicit).bind <|
    (finds_times fun _ => finds_output).bind <|
    (finds_times fun _ => finds_gate).bind_pure rfl

end Ascii

namespace Binary

open Reader

variable {c : Circuit}

def writeLatch (explicit : Latch → Bool) (l : Latch) : List UInt8 :=
  numbersLine (l.next.code :: (resetCode? (explicit l) l).toList)

def writeGate (g : Gate) : List UInt8 :=
  deltaCode (g.out.code - g.left.code) ++ deltaCode (g.left.code - g.right.code)

/-- The binary form, for a numbered netlist. -/
def write (explicit : Latch → Bool) (n : Netlist) : List UInt8 :=
  headerLine ['a', 'i', 'g'] n.header ++ (n.latches.flatMap (writeLatch explicit) ++
    (n.outputs.flatMap Ascii.writeSignal ++ n.gates.flatMap writeGate))

theorem finds_difference {n : Nat} (hn : n < 2 ^ 64) : difference.Finds (deltaCode n) n := by
  intro rest
  have hWord : (UInt64.ofNat n).toNat = n := UInt64.toNat_ofNat_of_lt' hn
  change _ = pure (n, rest)
  simp [difference, delta_zero hn, hWord]

theorem finds_latch (explicit : Latch → Bool) {l : Latch} (hl : l ∈ c.latches) :
    (latch l.signal).Finds (writeLatch explicit l) l := by
  have hNext := c.wellFormed.code_lt_of_uses (c.next_mem_uses hl)
  have hReset := reset_written (explicit l) hl
  refine (finds_numbers _).bind_pure ?_
  cases hWord : resetCode? (explicit l) l with
  | none =>
    rw [hWord, Option.map_none] at hReset
    simp [signal_writeNat hNext, hReset]
  | some r =>
    rw [hWord, Option.map_some] at hReset
    simp [signal_writeNat hNext, hReset]

theorem finds_gate {g : Gate} (hOut : g.out.code < 2 ^ 64)
    (hFanins : g.right.code ≤ g.left.code ∧ g.left.code < g.out.code) :
    (gate g.out.code).Finds (writeGate g) g := by
  have hFirst := finds_difference (n := g.out.code - g.left.code) (by omega)
  have hSecond := finds_difference (n := g.left.code - g.right.code) (by omega)
  have hLeft : g.out.code - (g.out.code - g.left.code) = g.left.code := by omega
  have hRight : g.left.code - (g.left.code - g.right.code) = g.right.code := by omega
  refine hFirst.bind (hSecond.bind_pure ?_)
  dsimp only
  rw [if_neg (by omega), hLeft, if_neg (by omega), hRight]

/-- Entries that carry the numbers that the reader counts. -/
theorem finds_numbered {α : Type} {entry : Nat → Reader α} {write : α → List UInt8}
    {name : α → Signal} {xs : List α} {v : Nat}
    (hNames : xs.map name = (List.range' v xs.length).map Signal.ofVar)
    (h : ∀ x ∈ xs, ∀ v, name x = Signal.ofVar v → (entry v).Finds (write x) x) :
    (numbered entry v xs.length).Finds (xs.flatMap write) xs := by
  induction xs generalizing v with
  | nil => exact finds_pure []
  | cons x xs ih =>
    obtain ⟨hx, hxs⟩ := List.forall_mem_cons.mp h
    obtain ⟨hName, hNames⟩ := List.cons.inj hNames
    exact (hx v hName).bind ((ih hNames hxs).bind_pure rfl)

theorem finds_latches (explicit : Latch → Bool) (hNumbered : c.Numbered) :
    (numbered (fun v => latch (Signal.ofVar v)) (c.inputs.length + 1) c.latches.length).Finds
      (c.latches.flatMap (writeLatch explicit)) c.latches := by
  apply finds_numbered hNumbered.latches
  intro l hl v hName
  rw [← hName]
  exact finds_latch explicit hl

theorem finds_gates (hNumbered : c.Numbered) :
    (numbered (fun v => gate (2 * v)) (c.inputs.length + c.latches.length + 1)
      c.gates.length).Finds (c.gates.flatMap writeGate) c.gates := by
  apply finds_numbered hNumbered.gates
  intro g hg v hName
  have hVar : 2 * v = g.out.code := (congrArg Signal.code hName).symm
  rw [hVar]
  exact finds_gate (c.wellFormed.code_lt_of_definitions (c.gate_mem_definitions hg))
    (hNumbered.fanins g hg)

theorem finds_netlist (explicit : Latch → Bool) (hOutputs : c.outputs.length < 2 ^ 64)
    (hNumbered : c.Numbered) : netlist.Finds (write explicit c.toNetlist) c.toNetlist := by
  have hMax := c.wellFormed.maxVar_lt
  have hLength := c.wellFormed.length_le
  have hInputs : Storage.fits c.inputs.length 8 = true := decide_eq_true (by omega)
  have hGates : Storage.fits c.gates.length 24 = true := decide_eq_true (by omega)
  refine (c.wellFormed.finds_header hOutputs (.inr rfl)).bind ?_
  dsimp only [Netlist.header]
  rw [if_pos hInputs]
  refine (finds_latches explicit hNumbered).bind ((finds_times fun _ => Ascii.finds_output).bind ?_)
  rw [if_pos hGates]
  refine (finds_gates hNumbered).bind_pure ?_
  rw [← hNumbered.inputs]

end Binary

namespace Circuit

/-- Both written forms of a numbered circuit are read as that circuit, whichever of the low
reset values are written and whatever follows. -/
theorem readers_agree (c : Circuit) (hNumbered : c.Numbered) (hOutputs : c.outputs.length < 2 ^ 64)
    (explicit explicit' : Latch → Bool) (rest rest' : List UInt8) :
    Binary.read (Binary.write explicit c.toNetlist ++ rest) = .ok c ∧
      Ascii.read (Ascii.write explicit' c.toNetlist ++ rest') = .ok c :=
  ⟨(Binary.finds_netlist explicit hOutputs hNumbered).circuit rest,
    (Ascii.finds_netlist explicit' hOutputs).circuit rest'⟩

/-- Latches of every kind, and a gate whose first difference takes two groups. -/
def numberedNetlist : Netlist where
  maxVar := 66
  inputs := (List.range' 1 62).map Signal.ofVar
  latches := [⟨⟨126⟩, ⟨132⟩, some false⟩, ⟨⟨128⟩, ⟨0⟩, some true⟩, ⟨⟨130⟩, ⟨127⟩, none⟩]
  outputs := [⟨133⟩]
  gates := [⟨⟨132⟩, ⟨3⟩, ⟨2⟩⟩]

def numberedCircuit : Circuit :=
  ⟨numberedNetlist, Netlist.wellFormed_of_check (n := numberedNetlist) (by decide +kernel)⟩

theorem write_numberedNetlist : Binary.write (fun l => l.next.code = 0) numberedNetlist =
    Text.encode "aig 66 62 3 1 1\n132\n0 1\n127 130\n133\n".toList ++ [0x81, 1, 1] := by
  have hGate : numberedNetlist.gates.flatMap Binary.writeGate = [0x81, 1, 1] := by
    simp [numberedNetlist, Binary.writeGate, Binary.deltaCode]
  rw [Binary.write, hGate]
  decide +kernel

theorem numberedCircuit_read :
    numberedCircuit.Numbered ∧ numberedCircuit.outputs.length < 2 ^ 64 ∧
    Binary.read (Text.encode "aig 66 62 3 1 1\n132\n0 1\n127 130\n133\n".toList ++
      [0x81, 1, 1] ++ [255, 10]) = .ok numberedCircuit ∧
    Ascii.read (Ascii.write (fun _ => true) numberedNetlist ++ Text.encode "c\nnote".toList) =
      .ok numberedCircuit := by
  have hNumbered : numberedCircuit.Numbered := ⟨rfl, rfl, rfl, by decide, rfl⟩
  have hOutputs : numberedCircuit.outputs.length < 2 ^ 64 := by decide
  obtain ⟨hBinary, hAscii⟩ := readers_agree numberedCircuit hNumbered hOutputs
    (fun l => l.next.code = 0) (fun _ => true) [255, 10] (Text.encode "c\nnote".toList)
  exact ⟨hNumbered, hOutputs, write_numberedNetlist ▸ hBinary, hAscii⟩

end Circuit

end SoftError
