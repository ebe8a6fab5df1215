import LexAutomata.Proofs.Dfa.Run

namespace LexAutomata.Dfa.Runner

inductive Call where
  | next (b : UInt8)
  | reset
  | verdict (w : List UInt8) (required : List String)

namespace Call

def perform (d : Dfa) (r : Runner) : Call → Option Bool × Runner
  | next b => (some (Runner.next d r b).1, (Runner.next d r b).2)
  | reset => (none, Runner.reset d r)
  | verdict w required => (some (Runner.verdict d r w required).1, (Runner.verdict d r w required).2)

/-- The bytes read since the last reset, if these were `u` before the call. A verdict counts as a reset
followed by its whole word, also if the word is not read to its end. -/
def extend (u : List UInt8) : Call → List UInt8
  | next b => u ++ [b]
  | reset => []
  | verdict w _ => w

end Call

/-- A runner from the start that was told all this. -/
def after (d : Dfa) (calls : List Call) : Runner :=
  calls.foldl (fun r call => (call.perform d r).2) (start d)

/-- The bytes that the calls read since the last reset among them. -/
def sinceReset (calls : List Call) : List UInt8 := calls.foldl Call.extend []

variable {d : Dfa} {r : Runner} {u v : List UInt8} {b : UInt8} {id : Nat}

theorem feed_append (d : Dfa) (r : Runner) (u v : List UInt8) :
    feed d r (u ++ v) = feed d (feed d r u) v := by
  simp only [feed,List.foldl_append]

theorem perform_feed (call : Call) (u : List UInt8) :
    (call.perform d (feed d (start d) u)).2 = feed d (start d) (call.extend u) := by
  cases call with
  | next b => rw [Call.extend,feed_append]; rfl
  | reset => rfl
  | verdict w required =>
    show run d (start d) w = feed d (start d) w
    exact run_eq_feed d (start d) w

theorem foldl_perform_feed (calls : List Call) (u : List UInt8) :
    calls.foldl (fun r call => (call.perform d r).2) (feed d (start d) u) =
      feed d (start d) (calls.foldl Call.extend u) := by
  induction calls generalizing u with
  | nil => rfl
  | cons call calls ih =>
    rw [List.foldl_cons,List.foldl_cons,perform_feed]
    exact ih (call.extend u)

theorem after_eq_feed (d : Dfa) (calls : List Call) :
    after d calls = feed d (start d) (sinceReset calls) := foldl_perform_feed calls []

/-- The first byte without a transition fails the runner at the node before it, for all bytes to come. -/
theorem feed_stuck (hu : d.follow? d.start u = some id) (hb : d.next? id b = none)
    (v : List UInt8) : feed d (start d) (u ++ b :: v) = ⟨id, true⟩ := by
  have hreached : feed d (start d) u = ⟨id, false⟩ := feed_of_follow? hu
  have hfails : feed d ⟨id, false⟩ (b :: v) = feed d ⟨id, true⟩ v := by
    rw [feed,List.foldl_cons,next_of_none hb]
    rfl
  rw [feed_append,hreached,hfails]
  exact feed_of_failed rfl v

/-- After any calls the runner stands where a fresh one stands that is fed with the bytes since the last
reset. If one of these bytes had no transition, the node is the last one before it, and every further byte
is answered by false. The answer to a byte tells whether the runner is on a final node after it, and a
verdict is the same after other calls. -/
theorem after_calls (d : Dfa) (calls : List Call) :
    let r := after d calls
    r = feed d (start d) (sinceReset calls) ∧
    (∀ u b v id, sinceReset calls = u ++ b :: v → d.follow? d.start u = some id →
      d.next? id b = none →
        r = ⟨id, true⟩ ∧ ∀ c, Call.perform d r (.next c) = (some false, r)) ∧
    (∀ b, (Call.perform d r (.next b)).1 = some ((Call.perform d r (.next b)).2.isFinal d)) ∧
    ∀ others w required, (Call.perform d r (.verdict w required)).1 =
      (Call.perform d (after d others) (.verdict w required)).1 := by
  have hfed := after_eq_feed d calls
  refine ⟨hfed,?_,?_,?_⟩
  · intro u b v id hread hu hb
    have hstuck : after d calls = ⟨id, true⟩ := by
      rw [hfed,hread]
      exact feed_stuck hu hb v
    refine ⟨hstuck,?_⟩
    intro c
    rw [hstuck,Call.perform,next_of_failed rfl]
  · intro b
    exact congrArg some (next_fst d (after d calls) b)
  · intro others w required
    rw [Call.perform,Call.perform,verdict_eq_accepts,verdict_eq_accepts]

/-- One letter again and again. -/
def letters : Dfa where
  nodes := [⟨[⟨.singleton 97, 1⟩], []⟩, ⟨[⟨.singleton 97, 1⟩], ["letters"]⟩]
  start := 0
  start_lt := by decide
  target_lt := by decide

/-- A verdict that stops at another letter leaves the runner there, and the next verdict is not touched
by it. -/
theorem after_calls_of_stopped_verdict :
    let calls : List Call := [.next 97, .verdict [97, 98, 97] [], .next 97]
    sinceReset calls = [97] ++ 98 :: [97, 97] ∧ letters.follow? letters.start [97] = some 1 ∧
      letters.next? 1 98 = none ∧ after letters calls = ⟨1, true⟩ ∧
      (Call.perform letters (after letters calls) (.next 97)).1 = some false ∧
      (Call.perform letters (after letters calls) (.verdict [97] ["letters"])).1 = some true := by
  intro calls
  have hread : sinceReset calls = [97] ++ 98 :: [97, 97] := rfl
  have hfollow : letters.follow? letters.start [97] = some 1 := by decide
  have hnext : letters.next? 1 98 = none := by decide
  have hfresh : (Call.perform letters (after letters [])
      (.verdict [97] ["letters"])).1 = some true := by decide
  obtain ⟨_,hstuck,_,hverdict⟩ := after_calls letters calls
  obtain ⟨hafter,hlater⟩ := hstuck _ _ _ _ hread hfollow hnext
  exact ⟨hread,hfollow,hnext,hafter,congrArg Prod.fst (hlater 97),(hverdict [] _ _).trans hfresh⟩

end LexAutomata.Dfa.Runner
