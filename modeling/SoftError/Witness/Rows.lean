import SoftError.Fault.Replay

/-!
# Traces as text

Each step of a replay is a row with the state, the inputs, the outputs and the next state.
From the fault on, the faulty values follow in a row of their own.
-/

namespace SoftError.Witness

def bits (bs : List Bool) : String := String.ofList (bs.map fun b => if b then '1' else '0')

def values (c : Circuit) (inputs : List Bool) (t : Table Bool) : String :=
  String.intercalate " "
    [bits (t.state c), bits inputs, bits (t.outputs c), bits (t.nextState c)]

/-- The rows from step `t` on, with a remark after each faulty row. -/
def rowsFrom (c : Circuit) (time : Nat) (remark : Nat → String) :
    (t : Nat) → List (List Bool) → List Observation → String
  | t, xs :: inputs, o :: rest =>
    let golden := s!"[ OK] i={t}: " ++ values c xs o.golden ++ "\n"
    let faulty :=
      if t < time then ""
      else s!"[ERR] i={t}: " ++ values c xs o.faulty
        ++ (if t = time then " <<< flipped in this state!" else "") ++ remark t ++ "\n"
    golden ++ faulty ++ rowsFrom c time remark (t + 1) inputs rest
  | _, _, _ => ""

/-- A heading and the rows of a replay. -/
def table (c : Circuit) (f : Fault) (title : String) (remark : Nat → String)
    (inputs : List (List Bool)) : String :=
  title ++ "\n[SIM] i=?: state | inputs | outputs | next state\n"
    ++ "-------------------------------------------------\n"
    ++ rowsFrom c f.time remark 0 inputs (f.replay c inputs)

end SoftError.Witness
