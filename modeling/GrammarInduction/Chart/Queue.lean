import GrammarInduction.Chart.Basic

/-!
# Ranking by priority queues

The candidates that fire and those that generalize are pushed into a priority queue each, by their
positions in the chart, and popped until the queue is empty. Any queue that is `Lawful` will do.
-/

namespace GrammarInduction

/-- What candidates are ranked by. -/
structure Priority where
  count : Nat
  discovery : Nat
deriving DecidableEq, Repr

/-- Higher counts first, then earlier discoveries. -/
instance : LE Priority where
  le p q := p.count < q.count ∨ p.count = q.count ∧ q.discovery ≤ p.discovery

instance (p q : Priority) : Decidable (p ≤ q) :=
  inferInstanceAs (Decidable (_ ∨ _))

def Candidate.priority (c : Candidate) : Priority := ⟨c.count, c.discovery⟩

/-- The operations of a priority queue of numbers, and what is in a queue, in any order. -/
structure PriorityQueue where
  Queue : Type
  empty : Queue
  push : Queue → Nat → Priority → Queue
  pop : Queue → Option ((Nat × Priority) × Queue)
  entries : Queue → List (Nat × Priority)

namespace PriorityQueue

/-- A number that is not yet in the queue is added to it. An entry of maximal priority is taken out,
unless there is none. -/
structure Lawful (Q : PriorityQueue) : Prop where
  entries_empty : Q.entries Q.empty = []
  entries_push : ∀ {q i} p, i ∉ (Q.entries q).map Prod.fst →
    (Q.entries (Q.push q i p)).Perm ((i, p) :: Q.entries q)
  entries_of_pop_none : ∀ {q}, Q.pop q = none → Q.entries q = []
  entries_of_pop : ∀ {q e rest}, Q.pop q = some (e, rest) →
    (Q.entries q).Perm (e :: Q.entries rest)
  maximal_of_pop : ∀ {q e rest}, Q.pop q = some (e, rest) → ∀ d ∈ Q.entries q, d.2 ≤ e.2

/-- Pops until the queue is empty. -/
def drain (Q : PriorityQueue) (lawful : Q.Lawful) (q : Q.Queue) : List Nat :=
  match _h : Q.pop q with
  | none => []
  | some ((i, _), rest) => i :: drain Q lawful rest
termination_by (Q.entries q).length
decreasing_by
  rw [(lawful.entries_of_pop ‹Q.pop q = _›).length_eq]
  exact Nat.lt_succ_self _

end PriorityQueue

/-- The candidates that reach their thresholds, highest priority first. -/
structure Ranking where
  fire : List Candidate
  wild : List Candidate
deriving DecidableEq, Repr

namespace Chart

variable (Q : PriorityQueue)

/-- Pushes a candidate, by its position, if it is selected. -/
def enqueue (selects : Candidate → Bool) (q : Q.Queue) (c : Candidate × Nat) : Q.Queue :=
  if selects c.1 then Q.push q c.2 c.1.priority else q

/-- Both rankings by priority queues. There is none if a queue gives a position without a
candidate. -/
def rank? (lawful : Q.Lawful) (chart : Chart) : Option Ranking := do
  let queues := chart.candidates.zipIdx.foldl
    (fun queues c =>
      (enqueue Q Candidate.fires queues.1 c, enqueue Q Candidate.generalizes queues.2 c))
    (Q.empty, Q.empty)
  let fire ← (Q.drain lawful queues.1).mapM fun i => chart.candidates[i]?
  let wild ← (Q.drain lawful queues.2).mapM fun i => chart.candidates[i]?
  return ⟨fire, wild⟩

end Chart

end GrammarInduction
