import SoftError.Circuit.Header
import SoftError.Proofs.Circuit.Acceptance
import SoftError.Proofs.Text.Line

/-!
# Readers and written forms

A written form is given part by part, and each part is found by its reader whatever follows it.
So a sequence of parts is found by the sequence of the readers.
-/

namespace SoftError

namespace Reader

variable {α β : Type} {m : Reader α} {f : α → Reader β} {x : α} {y : β}
  {written later : List UInt8}

/-- The reader takes the written bytes and no more, and finds `x` in them. -/
def Finds (m : Reader α) (written : List UInt8) (x : α) : Prop :=
  ∀ rest, m.run (written ++ rest) = .ok (x, rest)

theorem finds_pure (x : α) : Finds (pure x) [] x := fun _ => rfl

theorem Finds.bind (h : m.Finds written x) (hf : (f x).Finds later y) :
    (m >>= f).Finds (written ++ later) y := by
  intro rest
  rw [StateT.run_bind, List.append_assoc, h]
  exact hf rest

theorem Finds.bind_pure (h : m.Finds written x) (hf : f x = pure y) :
    (m >>= f).Finds written y := by
  have hBind := h.bind (hf ▸ finds_pure y)
  rwa [List.append_nil] at hBind

def lineBytes (ws : List (List Char)) : List UInt8 :=
  Text.encode (Text.line ws) ++ [Text.newline]

theorem finds_words {ws : List (List Char)} (hws : ∀ w ∈ ws, Text.IsWord w) :
    words.Finds (lineBytes ws) ws := by
  intro rest
  have hPlain := Text.newline_notMem_encode (Text.newline_notMem_line hws)
  have hNext := Text.nextLine_append hPlain rest
  rw [lineBytes, List.append_assoc, List.singleton_append]
  change _ = pure (ws, rest)
  simp [words, hNext, Text.decode_encode, Text.words_line hws]

theorem number_writeNat {n : Nat} (hn : n < 2 ^ 64) : number (Text.writeNat n) = pure n := by
  rw [number, Text.readWord_writeNat hn]

theorem signal_writeNat {s : Signal} (hs : s.code < 2 ^ 64) :
    signal (Text.writeNat s.code) = pure s := by
  rw [signal, number_writeNat hs, pure_bind]

theorem finds_times {entry : Reader α} {write : α → List UInt8} {xs : List α}
    (h : ∀ x ∈ xs, entry.Finds (write x) x) :
    (times entry xs.length).Finds (xs.flatMap write) xs := by
  induction xs with
  | nil => exact finds_pure []
  | cons x xs ih =>
    obtain ⟨hx, hxs⟩ := List.forall_mem_cons.mp h
    exact hx.bind ((ih hxs).bind_pure rfl)

def numbersLine (ns : List Nat) : List UInt8 := lineBytes (ns.map Text.writeNat)

theorem isWord_of_mem_map (ns : List Nat) : ∀ w ∈ ns.map Text.writeNat, Text.IsWord w :=
  List.forall_mem_map.mpr fun n _ => Text.isWord_writeNat n

theorem finds_numbers (ns : List Nat) : words.Finds (numbersLine ns) (ns.map Text.writeNat) :=
  finds_words (isWord_of_mem_map ns)

theorem finds_soleSignal (entry : Entry) {s : Signal} (hs : s.code < 2 ^ 64) :
    (soleSignal entry).Finds (numbersLine [s.code]) s :=
  (finds_numbers [s.code]).bind_pure (signal_writeNat hs)

def headerLine (format : List Char) (h : Header) : List UInt8 :=
  lineBytes (format :: [h.maxVar, h.inputs, h.latches, h.outputs, h.gates].map Text.writeNat)

theorem finds_header {format : List Char} {h : Header}
    (hFormat : format = ['a', 'a', 'g'] ∨ format = ['a', 'i', 'g']) (hVars : h.maxVar < 2 ^ 64)
    (hInputs : h.inputs < 2 ^ 64) (hLatches : h.latches < 2 ^ 64) (hOutputs : h.outputs < 2 ^ 64)
    (hGates : h.gates < 2 ^ 64) : header.Finds (headerLine format h) h := by
  have hWord : Text.IsWord format := by
    rcases hFormat with rfl | rfl
    · decide
    · decide
  have hKnown : ¬ (format ≠ "aag".toList ∧ format ≠ "aig".toList) := fun h =>
    hFormat.elim h.1 h.2
  refine (finds_words (List.forall_mem_cons.mpr ⟨hWord, isWord_of_mem_map _⟩)).bind_pure ?_
  dsimp only [List.map]
  rw [if_neg hKnown]
  simp only [number_writeNat, hVars, hInputs, hLatches, hOutputs, hGates, pure_bind]
  rfl

/-- The written reset value. A low latch may leave it out. -/
def resetCode? (explicit : Bool) (l : Latch) : Option Nat :=
  match l.reset with
  | none => some l.signal.code
  | some true => some 1
  | some false => if explicit then some 0 else none

theorem reset_resetCode? (explicit : Bool) {l : Latch} (hCode : l.signal.code < 2 ^ 64)
    (hDefined : 2 ≤ l.signal.code) :
    reset l.signal ((resetCode? explicit l).map Text.writeNat) = pure l.reset := by
  unfold resetCode?
  split
  · rename_i hReset
    rw [hReset, Option.map_some, reset, number_writeNat hCode, pure_bind, if_neg (by omega),
      if_neg (by omega), if_pos rfl]
  · rename_i hReset
    rw [hReset]
    rfl
  · rename_i hReset
    rw [hReset]
    cases explicit <;> rfl

/-- A circuit that is found is accepted as it is. -/
theorem Finds.circuit {reader : Reader Netlist} {c : Circuit} (h : reader.Finds written c.toNetlist)
    (rest : List UInt8) : reader.circuit (written ++ rest) = .ok c := by
  rw [Reader.circuit, h rest]
  dsimp only
  rw [Circuit.ofNetlist_toNetlist]
  rfl

end Reader

end SoftError
