import LexAutomata.Dfa.Basic

namespace LexAutomata.Dfa

/-- A byte without a transition fails the runner until it is reset; the node stays the last one reached. -/
structure Runner where
  node : Nat
  failed : Bool
  deriving DecidableEq

namespace Runner

def start (d : Dfa) : Runner := ⟨d.start, false⟩

def isFinal (d : Dfa) (r : Runner) : Bool := !r.failed && d.isFinal r.node

/-- Reads one byte, and tells whether the node reached is final. -/
def next (d : Dfa) (r : Runner) (b : UInt8) : Bool × Runner :=
  if r.failed then (false, r)
  else
    match d.next? r.node b with
    | some target => (d.isFinal target, ⟨target, false⟩)
    | none => (false, { r with failed := true })

/-- Reads the word and stops at a failure. -/
def run (d : Dfa) (r : Runner) : List UInt8 → Runner
  | [] => r
  | b :: w =>
    let after := (next d r b).2
    if after.failed then after else run d after w

/-- Whether one of the required names, if any is required, is among `names`. -/
def meets (names required : List String) : Bool :=
  required.isEmpty || required.any fun n => names.contains n

def accepted (d : Dfa) (r : Runner) (required : List String) : Bool :=
  r.isFinal d && meets (d.names r.node) required

/-- The verdict on a word, from the start, and the runner after it. -/
def accepts (d : Dfa) (w : List UInt8) (required : List String) : Bool × Runner :=
  let r := run d (start d) w
  (accepted d r required, r)

def reset (d : Dfa) (r : Runner) : Runner := { r with node := d.start, failed := false }

/-- The verdict on a word from a runner in use, which is reset before the word is read. -/
def verdict (d : Dfa) (r : Runner) (w : List UInt8) (required : List String) : Bool × Runner :=
  let after := run d (reset d r) w
  (accepted d after required, after)

theorem verdict_eq_accepts (d : Dfa) (r : Runner) (w : List UInt8) (required : List String) :
    verdict d r w required = accepts d w required := rfl

theorem next_of_failed {d : Dfa} {r : Runner} (h : r.failed = true) (b : UInt8) :
    next d r b = (false, r) := by
  rw [next,if_pos h]

theorem next_fst (d : Dfa) (r : Runner) (b : UInt8) :
    (next d r b).1 = (next d r b).2.isFinal d := by
  unfold next
  split
  · rename_i h
    simp [isFinal,h]
  · split <;> simp [isFinal]

end Runner

end LexAutomata.Dfa
