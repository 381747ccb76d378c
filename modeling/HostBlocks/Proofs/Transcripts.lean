import HostBlocks.Program

/-!
# Transcripts

What a program and a store say to each other, call by call. The store may be anything at all: what it
replies to a call may depend on everything that was said before, and need not fit it. A program takes
part in certain transcripts only, whatever the replies in them are, and these are what its calls and
its result are read off.
-/
namespace HostBlocks

structure Exchange where
  request : Request
  reply : request.Reply

def Exchange.error (x : Exchange) : Option StoreError :=
  match x.reply with
  | .ok _ => none
  | .error e => some e

/-- Replies to every call by what was said before it. -/
abbrev Responder : Type := List Exchange → (r : Request) → r.Reply

def Responder.reply (b : Responder) (r : Request) : StateM (List Exchange) r.Reply :=
  fun said => (b said r, said ++ [⟨r, b said r⟩])

namespace Program

variable {α β : Type} {p : Program α} {calls : List Exchange} {a : α}

/-- The result of a program whose calls are replied to so, and its exchanges. -/
def converse (p : Program α) (b : Responder) : α × List Exchange := (p.runWith b.reply).run []

/-- With these exchanges the program comes to this result. -/
inductive Transcript : Program α → List Exchange → α → Prop
  | done (a : α) : Transcript (.done a) [] a
  | call {r : Request} {next : r.Reply → Program α} {calls : List Exchange} {a : α} (reply : r.Reply)
      (h : Transcript (next reply) calls a) : Transcript (.call r next) (⟨r, reply⟩ :: calls) a

theorem transcript_done_iff {result : α} :
    (done result).Transcript calls a ↔ calls = [] ∧ a = result := by
  constructor
  · intro h
    cases h
    exact ⟨rfl, rfl⟩
  · rintro ⟨rfl, rfl⟩
    exact .done a

theorem transcript_call_iff {r : Request} {next : r.Reply → Program α} :
    (call r next).Transcript calls a ↔
      ∃ reply rest, calls = ⟨r, reply⟩ :: rest ∧ (next reply).Transcript rest a := by
  constructor
  · intro h
    cases h with
    | call reply h => exact ⟨reply, _, rfl, h⟩
  · rintro ⟨reply, rest, rfl, h⟩
    exact .call reply h

theorem transcript_map_iff {f : α → β} {result : β} :
    (p.map f).Transcript calls result ↔ ∃ a, p.Transcript calls a ∧ result = f a := by
  induction p generalizing calls with
  | done a =>
    rw [map, bind, transcript_done_iff]
    simp only [transcript_done_iff, and_assoc, exists_and_left, exists_eq_left]
  | call r next ih =>
    have hnext : (call r next).map f = call r fun reply => (next reply).map f := rfl
    simp only [hnext, transcript_call_iff, ih]
    constructor
    · rintro ⟨reply, rest, rfl, a, h, rfl⟩
      exact ⟨a, ⟨reply, rest, rfl, h⟩, rfl⟩
    · rintro ⟨a, ⟨reply, rest, rfl, h⟩, rfl⟩
      exact ⟨reply, rest, rfl, a, h, rfl⟩

/-- What was said before stays, and what the program adds to it is one of its transcripts. -/
theorem exists_transcript_runWith (p : Program α) (b : Responder) (said : List Exchange) :
    ∃ calls, ((p.runWith b.reply).run said).2 = said ++ calls ∧
      p.Transcript calls ((p.runWith b.reply).run said).1 := by
  induction p generalizing said with
  | done a => exact ⟨[], (List.append_nil said).symm, .done a⟩
  | call r next ih =>
    obtain ⟨calls, hsaid, h⟩ := ih (b said r) (said ++ [⟨r, b said r⟩])
    exact ⟨⟨r, b said r⟩ :: calls, hsaid.trans (List.append_assoc ..), .call _ h⟩

theorem transcript_converse (p : Program α) (b : Responder) :
    p.Transcript (p.converse b).2 (p.converse b).1 := by
  obtain ⟨calls, hsaid, h⟩ := p.exists_transcript_runWith b []
  rw [converse, hsaid]
  exact h

end Program

end HostBlocks
