import Mathlib.Logic.Relation

/-!
# Programs that ask

A program that asks questions of something outside it, each with its own type of answer, and goes on
with what it was told. Nothing is known of who answers: a run is the list of questions with their
answers, and what a program does is said of every run.

A `Session` may also fail. Whoever answers may move between two questions: `Observed` places the answers
of a run on the states of a system that takes steps meanwhile.
-/

set_option autoImplicit false

namespace UnicityBridge.Lib

/-- A program that ends in a value, or asks and goes on with the answer. -/
inductive Dialogue (Q : Type) (A : Q → Type) (α : Type) where
  | done (value : α)
  | ask (question : Q) (next : A question → Dialogue Q A α)

namespace Dialogue

variable {Q : Type} {A : Q → Type} {α β ε : Type}

/-- One dialogue after another. -/
protected def bind (program : Dialogue Q A α) (f : α → Dialogue Q A β) : Dialogue Q A β :=
  match program with
  | done value => f value
  | ask question next => ask question fun answer => (next answer).bind f

instance : Monad (Dialogue Q A) where
  pure := done
  bind := Dialogue.bind

/-- One question, answered. -/
abbrev Exchange (Q : Type) (A : Q → Type) := (question : Q) × A question

/-- The program can end in the value, with these questions and answers. -/
inductive Ends : Dialogue Q A α → List (Exchange Q A) → α → Prop
  | done (value : α) : Ends (.done value) [] value
  | ask {question : Q} {next : A question → Dialogue Q A α} {answer : A question}
      {rest : List (Exchange Q A)} {value : α} (h : Ends (next answer) rest value) :
      Ends (.ask question next) (⟨question, answer⟩ :: rest) value

theorem ends_pure {trace : List (Exchange Q A)} {value result : α} :
    Ends (pure value : Dialogue Q A α) trace result ↔ trace = [] ∧ value = result := by
  constructor
  · intro h
    cases h
    exact ⟨rfl, rfl⟩
  · rintro ⟨rfl, rfl⟩
    exact .done value

theorem ends_ask {question : Q} {next : A question → Dialogue Q A α}
    {trace : List (Exchange Q A)} {result : α} :
    Ends (.ask question next) trace result ↔
      ∃ answer rest, trace = ⟨question, answer⟩ :: rest ∧ Ends (next answer) rest result := by
  constructor
  · intro h
    cases h with
    | ask h => exact ⟨_, _, rfl, h⟩
  · rintro ⟨answer, rest, rfl, h⟩
    exact .ask h

/-- A run of two parts is a run of the first and one of the second. -/
theorem ends_bind {program : Dialogue Q A α} {f : α → Dialogue Q A β} {trace : List (Exchange Q A)}
    {result : β} : Ends (program >>= f) trace result ↔
      ∃ value front back, trace = front ++ back ∧ Ends program front value ∧ Ends (f value) back result := by
  show Ends (program.bind f) trace result ↔ _
  constructor
  · intro h
    induction program generalizing trace with
    | done value => exact ⟨value, [], trace, rfl, .done value, h⟩
    | ask question next ih =>
        obtain ⟨answer, rest, rfl, hrest⟩ := ends_ask.1 h
        obtain ⟨value, front, back, rfl, hfront, hback⟩ := ih answer hrest
        exact ⟨value, ⟨question, answer⟩ :: front, back, rfl, .ask hfront, hback⟩
  · rintro ⟨value, front, back, rfl, hfront, hback⟩
    induction hfront with
    | done => exact hback
    | ask _ ih => exact .ask (ih hback)

/-! ## Ending -/

/-- The answers are those of a node that may look at what it was asked before. -/
def Answered (node : List (Exchange Q A) → ∀ question, A question) :
    List (Exchange Q A) → List (Exchange Q A) → Prop
  | _, [] => True
  | asked, ⟨question, answer⟩ :: rest =>
      answer = node asked question ∧ Answered node (asked ++ [⟨question, answer⟩]) rest

/-- **A program ends**, whatever it is told. -/
theorem exists_ends (program : Dialogue Q A α)
    (node : List (Exchange Q A) → ∀ question, A question) (asked : List (Exchange Q A)) :
    ∃ trace value, Ends program trace value ∧ Answered node asked trace := by
  induction program generalizing asked with
  | done value => exact ⟨[], value, .done value, trivial⟩
  | ask question next ih =>
      obtain ⟨trace, value, hends, hanswered⟩ :=
        ih (node asked question) (asked ++ [⟨question, node asked question⟩])
      exact ⟨_, value, .ask hends, rfl, hanswered⟩

/-- Every answer is one that the node gave. -/
theorem Answered.eq_node {node : List (Exchange Q A) → ∀ question, A question}
    {asked trace : List (Exchange Q A)} (h : Answered node asked trace) {question : Q}
    {answer : A question} (hmem : (⟨question, answer⟩ : Exchange Q A) ∈ trace) :
    ∃ asked, answer = node asked question := by
  induction trace generalizing asked with
  | nil => cases hmem
  | cons exchange rest ih =>
      obtain ⟨hanswer, hrest⟩ := h
      rcases List.mem_cons.1 hmem with heq | hmem
      · cases heq
        exact ⟨asked, hanswer⟩
      · exact ih hrest hmem

/-! ## Sessions -/

end Dialogue

/-- A program that asks and may fail. -/
abbrev Session (Q : Type) (A : Q → Type) (ε α : Type) := ExceptT ε (Dialogue Q A) α

namespace Session

open Dialogue

variable {Q : Type} {A : Q → Type} {α β ε : Type}

/-- The session ends in the result, with these questions and answers. -/
def Ends (session : Session Q A ε α) (trace : List (Exchange Q A)) (result : Except ε α) : Prop :=
  Dialogue.Ends session.run trace result

theorem ends_pure {trace : List (Exchange Q A)} {value : α} {result : Except ε α} :
    Ends (pure value : Session Q A ε α) trace result ↔ trace = [] ∧ .ok value = result :=
  Dialogue.ends_pure

theorem ends_throw {trace : List (Exchange Q A)} {error : ε} {result : Except ε α} :
    Ends (throw error : Session Q A ε α) trace result ↔ trace = [] ∧ .error error = result :=
  Dialogue.ends_pure

/-- A result that needs no question. -/
theorem ends_lift {trace : List (Exchange Q A)} {value result : Except ε α} :
    Ends (liftM value : Session Q A ε α) trace result ↔ trace = [] ∧ value = result :=
  Dialogue.ends_pure

/-- The first part fails, or the second goes on with its value. -/
theorem ends_bind {session : Session Q A ε α} {f : α → Session Q A ε β}
    {trace : List (Exchange Q A)} {result : Except ε β} : Ends (session >>= f) trace result ↔
      (∃ error, result = .error error ∧ Ends session trace (.error error)) ∨
        ∃ value front back, trace = front ++ back ∧ Ends session front (.ok value) ∧
          Ends (f value) back result := by
  show Dialogue.Ends (session.run >>= ExceptT.bindCont f) trace result ↔ _
  rw [Dialogue.ends_bind]
  constructor
  · rintro ⟨value, front, back, rfl, hfront, hback⟩
    cases value with
    | error error =>
        obtain ⟨rfl, rfl⟩ := Dialogue.ends_pure.1 hback
        rw [List.append_nil]
        exact .inl ⟨error, rfl, hfront⟩
    | ok value => exact .inr ⟨value, front, back, rfl, hfront, hback⟩
  · rintro (⟨error, rfl, h⟩ | ⟨value, front, back, rfl, hfront, hback⟩)
    · exact ⟨.error error, trace, [], (List.append_nil trace).symm, h, Dialogue.ends_pure.2 ⟨rfl, rfl⟩⟩
    · exact ⟨.ok value, front, back, rfl, hfront, hback⟩

/-- The result of a part, also when it failed. -/
def attempt (session : Session Q A ε α) : Session Q A ε (Except ε α) :=
  ExceptT.mk (session.run >>= fun result => pure (.ok result))

theorem ends_attempt {session : Session Q A ε α} {trace : List (Exchange Q A)}
    {result : Except ε (Except ε α)} :
    Ends (attempt session) trace result ↔ ∃ inner, result = .ok inner ∧ Ends session trace inner := by
  show Dialogue.Ends (session.run >>= _) trace result ↔ _
  rw [Dialogue.ends_bind]
  constructor
  · rintro ⟨inner, front, back, rfl, hfront, hback⟩
    obtain ⟨rfl, rfl⟩ := Dialogue.ends_pure.1 hback
    rw [List.append_nil]
    exact ⟨inner, rfl, hfront⟩
  · rintro ⟨inner, rfl, h⟩
    exact ⟨inner, trace, [], (List.append_nil trace).symm, h, Dialogue.ends_pure.2 ⟨rfl, rfl⟩⟩

end Session

/-! ## A system that moves meanwhile -/

/-- The answers of the run are those of a system in the states that it comes to between the questions. -/
inductive Observed {Q : Type} {A : Q → Type} {S : Type} (reaches : S → S → Prop)
    (answers : S → ∀ question, A question → Prop) : S → List (Dialogue.Exchange Q A) → S → Prop
  | done {s s' : S} (h : reaches s s') : Observed reaches answers s [] s'
  | ask {s s' last : S} {question : Q} {answer : A question} {rest : List (Dialogue.Exchange Q A)}
      (h : reaches s s') (hanswer : answers s' question answer)
      (hrest : Observed reaches answers s' rest last) :
      Observed reaches answers s (⟨question, answer⟩ :: rest) last

end UnicityBridge.Lib
