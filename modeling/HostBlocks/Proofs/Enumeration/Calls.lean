import HostBlocks.Enumeration.Candidates

/-!
# Calls of an enumerator

An enumerator gives one answer a call and is another one after it. What it does over all its calls is
a list: the elements of the list in turn, and nothing from the end of the list on.
-/
namespace HostBlocks.Enumerator

variable {σ τ α : Type}

/-- The enumerator after so many calls. One that is exhausted stays as it is. -/
def after (next : σ → Option (α × σ)) : Nat → σ → σ
  | 0, s => s
  | k + 1, s => after next k ((next s).elim s Prod.snd)

def answer (next : σ → Option (α × σ)) (k : Nat) (s : σ) : Option α :=
  (next (after next k s)).map Prod.fst

def first (next : σ → Option (α × σ)) (k : Nat) (s : σ) : List α :=
  (List.range k).filterMap fun i => answer next i s

/-- The calls give the elements of `order` in turn and nothing after that. -/
def Gives (next : σ → Option (α × σ)) (s : σ) (order : List α) : Prop :=
  ∀ k, answer next k s = order[k]?

variable {next : σ → Option (α × σ)} {s s' : σ} {a : α} {order : List α}

theorem after_of_none (h : next s = none) (k : Nat) : after next k s = s := by
  induction k with
  | zero => rfl
  | succ k ih =>
    rw [after, h]
    exact ih

theorem answer_succ (h : next s = some (a, s')) (k : Nat) :
    answer next (k + 1) s = answer next k s' := by
  rw [answer, after, h]
  rfl

theorem first_succ (h : next s = some (a, s')) (k : Nat) :
    first next (k + 1) s = a :: first next k s' := by
  have hzero : answer next 0 s = some a := by
    rw [answer, after, h]
    rfl
  have hlater : (fun i => answer next (i + 1) s) = fun i => answer next i s' :=
    funext (answer_succ h)
  rw [first, List.range_succ_eq_map, List.filterMap_cons, hzero, List.filterMap_map]
  exact congrArg (fun f => a :: (List.range k).filterMap f) hlater

theorem gives_nil (h : next s = none) : Gives next s [] := by
  intro k
  rw [answer, after_of_none h, h]
  rfl

theorem Gives.cons (h : next s = some (a, s')) (hrest : Gives next s' order) :
    Gives next s (a :: order) := by
  intro k
  cases k with
  | zero =>
    rw [answer, after, h]
    rfl
  | succ k =>
    rw [answer_succ h, List.getElem?_cons_succ]
    exact hrest k

theorem Gives.next_eq_none (h : Gives next s []) : next s = none := by
  have hzero := h 0
  rw [answer, after, List.getElem?_nil] at hzero
  exact Option.map_eq_none_iff.1 hzero

theorem Gives.exists_next (h : Gives next s (a :: order)) :
    ∃ s', next s = some (a, s') ∧ Gives next s' order := by
  have hzero := h 0
  rw [answer, after, List.getElem?_cons_zero, Option.map_eq_some_iff] at hzero
  obtain ⟨⟨_, s'⟩, hnext, rfl⟩ := hzero
  refine ⟨s', hnext, fun k => ?_⟩
  rw [← answer_succ hnext, h (k + 1), List.getElem?_cons_succ]

/-- Enumerators that go along with each other give the same. -/
theorem Gives.transfer {next' : τ → Option (α × τ)} {f : σ → τ}
    (hf : ∀ s, next' (f s) = (next s).map fun found => (found.1, f found.2))
    (h : Gives next s order) : Gives next' (f s) order := by
  induction order generalizing s with
  | nil =>
    apply gives_nil
    rw [hf, h.next_eq_none]
    rfl
  | cons a order ih =>
    obtain ⟨s', hnext, hrest⟩ := h.exists_next
    apply Gives.cons _ (ih hrest)
    rw [hf, hnext]
    rfl

/-- The candidates that are taken are the first that calls give. -/
theorem Gives.take_eq {c : Candidates} {order : List Network} (h : Gives Candidates.next c order)
    (n : Nat) : c.take n = order.take n := by
  induction n generalizing c order with
  | zero => rfl
  | succ n ih =>
    cases order with
    | nil => simp only [Candidates.take, h.next_eq_none, List.take_nil]
    | cons cidr order =>
      obtain ⟨rest, hnext, hrest⟩ := h.exists_next
      simp only [Candidates.take, hnext, List.take_succ_cons, ih hrest]

theorem Gives.toList_eq {c : Candidates} {order : List Network} (h : Gives Candidates.next c order)
    (hlen : order.length ≤ c.remaining) : c.toList = order := by
  rw [Candidates.toList, h.take_eq, List.take_of_length_le hlen]

end HostBlocks.Enumerator
