import UnicityBridge.Lib.Concurrent
import Mathlib.Logic.Function.Basic

/-!
# Requests beside a program

A service answers requests while its program runs. The handler of a request is a program over the same
store; its steps fall between those of the service's program and those of other handlers. When the
service goes down, the handlers that were at work never answer.

A handler sees the events of all others as interference, so `Prog.Ensures` speaks about one handler at a
time (`System.seen`). `Knows.serves` carries this to all of them at once: the events of the handlers are
those that the service allows to others (`System.Served.reach`), and each answer has its
postcondition (`System.Served.postcondition`), also from a moment on at which more was known of the
store (`System.Served.answered_since`).
-/

set_option autoImplicit false

namespace UnicityBridge.Lib

variable {S E Q : Type} {A : Q → Type} {X P H R : Type}

/-! ## Handlers -/

/-- The program without others beside it. -/
def System.alone (sys : System S E Q A P) : System S E Q A P := { sys with other := fun _ _ => False }

/-- The store as a handler sees it: every admitted event may come in between, as far as it is lawful. -/
def System.seen (sys : System S E Q A P) (law : S → E → Prop) : System S E Q A P :=
  { sys with
    admits := fun s e => sys.admits s e ∧ law s e
    other := fun s e => sys.admits s e ∧ law s e }

/-- An answer, with its question. -/
abbrev Heard (Q : Type) (A : Q → Type) := Σ question : Q, A question

/-- The answer the label records, if it records one. -/
def Label.answer : Label E Q A X → Option (Heard Q A)
  | .heard question answer => some ⟨question, answer⟩
  | _ => none

/-- The answers of a history, the latest first. -/
def World.answers (w : World S E Q A X) : List (Heard Q A) :=
  w.past.filterMap fun moment => moment.2.answer

theorem World.answers_heard (w : World S E Q A X) (question : Q) (answer : A question) :
    (w.heard question answer).answers = ⟨question, answer⟩ :: w.answers := rfl

/-- Interference is not heard. -/
theorem System.Rely.answers {sys : System S E Q A P} {w w' : World S E Q A X} (h : sys.Rely w w') :
    w'.answers = w.answers := by
  induction h with
  | refl => rfl
  | tail _ hstep ih =>
      cases hstep with
      | other | outside => exact ih

/-- What every lawful event keeps, interference keeps. -/
theorem System.Rely.given {sys : System S E Q A P} {law : S → E → Prop} (given : S → Prop)
    (hkeeps : ∀ s e, sys.admits s e → law s e → given s → given (sys.apply s e))
    {w w' : World S E Q A X} (h : (sys.seen law).Rely w w') (hgiven : given w.state) :
    given w'.state := by
  induction h with
  | refl => exact hgiven
  | tail _ hstep ih =>
      cases hstep with
      | other hadmits => exact hkeeps _ _ hadmits.1 hadmits.2 ih
      | outside => exact ih

/-- The handler is cut off, unless it has ended already. -/
def Prog.givenUp : Prog S E Q A (Option R) → Prog S E Q A (Option R)
  | .done answer => .done answer
  | _ => .done none

/-- The program commits nothing. -/
def Prog.Quiet {α : Type} : Prog S E Q A α → Prop
  | .done _ => True
  | .act event next => (∀ s, event s = none) ∧ ∀ s s', (next s s').Quiet
  | .ask _ next => ∀ answer, (next answer).Quiet

/-- A program that commits nothing ensures what holds anyway. -/
theorem Prog.Quiet.ensures {α : Type} {sys : System S E Q A P} {guard allowed : World S E Q A X → E → Prop}
    {post : World S E Q A X → α → Prop} (hpost : ∀ w value, post w value) {prog : Prog S E Q A α}
    (h : prog.Quiet) (w : World S E Q A X) : prog.Ensures sys guard allowed post w := by
  induction prog generalizing w with
  | done value => exact fun w' _ _ => hpost w' value
  | act event next ih =>
      intro w' _ _
      refine ⟨fun _ => ih _ _ (h.2 _ _) w', fun e he => ?_⟩
      rw [h.1] at he
      cases he
  | ask question next ih => exact fun w' _ _ answer => ih answer (h answer) _

theorem Prog.Quiet.bind {α β : Type} {prog : Prog S E Q A α} {rest : α → Prog S E Q A β}
    (h : prog.Quiet) (hrest : ∀ value, (rest value).Quiet) : (prog >>= rest).Quiet := by
  show (prog.bind rest).Quiet
  induction prog with
  | done value => exact hrest value
  | act event next ih => exact ⟨h.1, fun s s' => ih _ _ (h.2 s s')⟩
  | ask question next ih => exact fun answer => ih answer (h answer)

theorem Prog.quiet_read {α : Type} (f : S → α) : (Prog.read f : Prog S E Q A α).Quiet :=
  ⟨fun _ => rfl, fun _ _ => trivial⟩

theorem Prog.quiet_query (question : Q) : (Prog.query question : Prog S E Q A (A question)).Quiet :=
  fun _ => trivial

/-! ## A service at work -/

/-- A request, what its handler has heard, the latest first, and what is left of the handler. A
handler that ends with `none` gives no answer. -/
structure Handling (S E Q : Type) (A : Q → Type) (H R : Type) where
  request : H
  heard : List (Heard Q A)
  handler : Prog S E Q A (Option R)

/-- A request whose handler committed an event, with the state that the event found. -/
structure Handled (S E Q : Type) (A : Q → Type) (H : Type) where
  request : H
  heard : List (Heard Q A)
  state : S
  event : E

/-- A service at work, with the requests that arrived and the events of their handlers, the latest
first. -/
structure Serving (S E Q : Type) (A : Q → Type) (X P H R : Type) where
  config : Config S E Q A X P
  arrived : Nat
  requests : Nat → Option (Handling S E Q A H R)
  commits : List (Handled S E Q A H)

namespace Serving

variable (p : Serving S E Q A X P H R)

/-- The store. -/
def state : S := p.config.world.state

/-- Request `i` is this one, and was answered after its handler had heard this. -/
def Answered (i : Nat) (request : H) (heard : List (Heard Q A)) (answer : R) : Prop :=
  p.requests i = some ⟨request, heard, .done (some answer)⟩

end Serving

/-- One step: of the service's own program, of a handler, or the arrival of a request. -/
inductive System.Serves (sys : System S E Q A P) (arrives : H → Prop)
    (handler : H → Prog S E Q A (Option R)) :
    Serving S E Q A X P H R → Serving S E Q A X P H R → Prop where
  | program {c : Config S E Q A X P} {w : World S E Q A X} {prog : Prog S E Q A P} {arrived : Nat}
      {requests : Nat → Option (Handling S E Q A H R)} {commits : List (Handled S E Q A H)}
      (h : sys.alone.Step c ⟨w, .running prog⟩) :
      Serves sys arrives handler ⟨c, arrived, requests, commits⟩
        ⟨⟨w, .running prog⟩, arrived, requests, commits⟩
  | down {c : Config S E Q A X P} {w : World S E Q A X} {arrived : Nat}
      {requests : Nat → Option (Handling S E Q A H R)} {commits : List (Handled S E Q A H)}
      (h : sys.alone.Step c ⟨w, .down⟩) :
      Serves sys arrives handler ⟨c, arrived, requests, commits⟩
        ⟨⟨w, .down⟩, arrived,
          fun i => (requests i).map fun entry => { entry with handler := entry.handler.givenUp },
          commits⟩
  | arrive {w : World S E Q A X} {prog : Prog S E Q A P} {arrived : Nat}
      {requests : Nat → Option (Handling S E Q A H R)} {commits : List (Handled S E Q A H)}
      {request : H} (h : arrives request) :
      Serves sys arrives handler ⟨⟨w, .running prog⟩, arrived, requests, commits⟩
        ⟨⟨w, .running prog⟩, arrived + 1,
          Function.update requests arrived (some ⟨request, [], handler request⟩), commits⟩
  | quiet {w : World S E Q A X} {prog : Prog S E Q A P} {arrived : Nat}
      {requests : Nat → Option (Handling S E Q A H R)} {commits : List (Handled S E Q A H)} {i : Nat}
      {request : H} {heard : List (Heard Q A)} {event : S → Option E}
      {next : S → S → Prog S E Q A (Option R)}
      (hi : requests i = some ⟨request, heard, .act event next⟩) (h : event w.state = none) :
      Serves sys arrives handler ⟨⟨w, .running prog⟩, arrived, requests, commits⟩
        ⟨⟨w, .running prog⟩, arrived,
          Function.update requests i (some ⟨request, heard, next w.state w.state⟩), commits⟩
  | commit {w : World S E Q A X} {prog : Prog S E Q A P} {arrived : Nat}
      {requests : Nat → Option (Handling S E Q A H R)} {commits : List (Handled S E Q A H)} {i : Nat}
      {request : H} {heard : List (Heard Q A)} {event : S → Option E}
      {next : S → S → Prog S E Q A (Option R)} {e : E}
      (hi : requests i = some ⟨request, heard, .act event next⟩) (h : event w.state = some e)
      (admitted : sys.admits w.state e) :
      Serves sys arrives handler ⟨⟨w, .running prog⟩, arrived, requests, commits⟩
        ⟨⟨w.other sys e, .running prog⟩, arrived,
          Function.update requests i (some ⟨request, heard, next w.state (sys.apply w.state e)⟩),
          ⟨request, heard, w.state, e⟩ :: commits⟩
  | answer {w : World S E Q A X} {prog : Prog S E Q A P} {arrived : Nat}
      {requests : Nat → Option (Handling S E Q A H R)} {commits : List (Handled S E Q A H)} {i : Nat}
      {request : H} {heard : List (Heard Q A)} {question : Q}
      {next : A question → Prog S E Q A (Option R)}
      (hi : requests i = some ⟨request, heard, .ask question next⟩) (answer : A question) :
      Serves sys arrives handler ⟨⟨w, .running prog⟩, arrived, requests, commits⟩
        ⟨⟨w, .running prog⟩, arrived,
          Function.update requests i (some ⟨request, ⟨question, answer⟩ :: heard, next answer⟩),
          commits⟩

/-- A service that was never started. -/
def System.unserved (sys : System S E Q A P) : Serving S E Q A X P H R where
  config := ⟨⟨sys.initial, []⟩, .down⟩
  arrived := 0
  requests := fun _ => none
  commits := []

variable {sys : System S E Q A P} {arrives : H → Prop} {handler : H → Prog S E Q A (Option R)}

theorem System.alone_step {c c' : Config S E Q A X P} (h : sys.alone.Step c c') : sys.Step c c' := by
  cases h with
  | other h => exact absurd h id
  | outside x => exact .outside x
  | quiet h => exact .quiet h
  | own h admitted => exact .own h admitted
  | answer a => exact .answer a
  | goto point => exact .goto point
  | abort h => exact .abort h
  | crash => exact .crash
  | start => exact .start

/-- The program alone leaves the store, or commits an admitted event. -/
theorem System.alone_state {c c' : Config S E Q A X P} (h : sys.alone.Step c c') :
    c'.world.state = c.world.state ∨
      ∃ e, sys.admits c.world.state e ∧ c'.world.state = sys.apply c.world.state e ∧
        (c.world.state, Label.own e) ∈ c'.world.past := by
  cases h with
  | other h => exact absurd h id
  | outside | quiet | answer | goto | abort | crash | start => exact .inl rfl
  | @own w event next e h admitted => exact .inr ⟨e, admitted, rfl, List.mem_cons_self⟩

/-- What the program alone does is none of the others' doing. -/
theorem System.alone_past {c c' : Config S E Q A X P} (h : sys.alone.Step c c') {s : S} {e : E}
    (hmem : (s, Label.other e) ∈ c'.world.past) : (s, Label.other e) ∈ c.world.past := by
  cases h with
  | other h => exact absurd h id
  | quiet | goto | abort | crash => exact hmem
  | outside | own | answer | start =>
      exact (List.mem_cons.1 hmem).resolve_left fun heq => by cases heq

/-! ## What is known of a service at work -/

section Knows

/-- What holds of a history with this state in which a handler has heard this. -/
def Sees (sys : System S E Q A P) (law : S → E → Prop) (heard : List (Heard Q A))
    (holds : World S E Q A X → Prop) (s : S) : Prop :=
  ∃ w : World S E Q A X, (sys.seen law).Guarded (fun _ _ => True) w ∧ w.state = s ∧
    w.answers = heard ∧ holds w

/-- The events of a history, of the program and of the others, are lawful. -/
def World.Lawful (law : S → E → Prop) (w : World S E Q A X) : Prop :=
  ∀ s e, (s, Label.own e) ∈ w.past ∨ (s, Label.other e) ∈ w.past → law s e

/-- The events that can follow a guarded history. -/
def System.lawOf (sys : System S E Q A P) (guard : World S E Q A X → E → Prop) (s : S) (e : E) : Prop :=
  ∃ w : World S E Q A X, sys.Guarded guard w ∧ w.state = s ∧ (guard w e ∨ sys.other s e)

/-- **What a handler sees under the law of a guard** are the states of guarded histories. -/
theorem System.Guarded.of_seen {guard guard' : World S E Q A X → E → Prop} {w : World S E Q A X}
    (h : (sys.seen (sys.lawOf guard)).Guarded guard' w) :
    ∃ w₀ : World S E Q A X, sys.Guarded guard w₀ ∧ w₀.state = w.state := by
  have hstep : ∀ {s : S} {e : E}, sys.admits s e ∧ sys.lawOf guard s e →
      ∃ w₀ : World S E Q A X, sys.Guarded guard w₀ ∧ w₀.state = sys.apply s e := by
    rintro s e ⟨hadmits, w₀, hguarded, rfl, hallowed | hother⟩
    · exact ⟨w₀.own sys e, .own hguarded hallowed hadmits, rfl⟩
    · exact ⟨w₀.other sys e, .other hguarded hother, rfl⟩
  induction h with
  | initial => exact ⟨⟨sys.initial, []⟩, .initial, rfl⟩
  | own _ _ hadmits _ => exact hstep hadmits
  | other _ hother _ => exact hstep hother
  | heard _ _ _ ih | outside _ _ ih | started _ ih => exact ih

variable {law : S → E → Prop} {allowed : H → List (Heard Q A) → S → E → Prop} {given : S → Prop}
  {answered : S → H → List (Heard Q A) → R → Prop}

/-- The handler commits only events that are allowed, and an answer has its postcondition. -/
def Prog.Handles (sys : System S E Q A P) (law : S → E → Prop)
    (allowed : H → List (Heard Q A) → S → E → Prop)
    (answered : S → H → List (Heard Q A) → R → Prop) (request : H) (prog : Prog S E Q A (Option R))
    (w : World S E Q A X) : Prop :=
  prog.Ensures (sys.seen law) (fun _ _ => True) (fun w e => allowed request w.answers w.state e)
    (fun w answer => ∀ r, answer = some r → answered w.state request w.answers r) w

/-- What is known of a service at work since `first` requests had arrived. -/
structure Knows (sys : System S E Q A P) (law : S → E → Prop)
    (allowed : H → List (Heard Q A) → S → E → Prop) (given : S → Prop)
    (answered : S → H → List (Heard Q A) → R → Prop) (first : Nat) (p : Serving S E Q A X P H R) :
    Prop where
  given : given p.state
  seen : Sees (X := X) sys law [] (fun _ => True) p.state
  arrived : first ≤ p.arrived
  handled : ∀ i, first ≤ i → ∀ entry, p.requests i = some entry →
    Sees (X := X) sys law entry.heard (entry.handler.Handles sys law allowed answered entry.request) p.state

/-- Nothing is claimed of the requests that are there already. -/
theorem Knows.start {p : Serving S E Q A X P H R} (hgiven : given p.state)
    (hseen : Sees (X := X) sys law [] (fun _ => True) p.state)
    (hnone : ∀ i, p.arrived ≤ i → p.requests i = none) :
    Knows sys law allowed given answered p.arrived p where
  given := hgiven
  seen := hseen
  arrived := Nat.le_refl _
  handled := by
    intro i hi entry hentry
    rw [hnone i hi] at hentry
    cases hentry

theorem Sees.other {heard : List (Heard Q A)} {holds : World S E Q A X → Prop} {s : S} {e : E}
    (h : Sees sys law heard holds s) (hadmits : sys.admits s e) (hlaw : law s e)
    (hkept : ∀ w w' : World S E Q A X, (sys.seen law).Rely w w' → holds w → holds w') :
    Sees sys law heard holds (sys.apply s e) := by
  obtain ⟨w, hguarded, rfl, rfl, hholds⟩ := h
  have hstep : (sys.seen law).Interferes w (w.other (sys.seen law) e) := .other ⟨hadmits, hlaw⟩
  exact ⟨w.other (sys.seen law) e, .other hguarded ⟨hadmits, hlaw⟩, rfl, rfl,
    hkept _ _ (.single hstep) hholds⟩

/-- What one handler ensures survives the steps of the others. -/
theorem Prog.Handles.rely {request : H} {prog : Prog S E Q A (Option R)} {w w' : World S E Q A X}
    (hrely : (sys.seen law).Rely w w') (h : prog.Handles sys law allowed answered request w) :
    prog.Handles sys law allowed answered request w' :=
  Prog.Ensures.rely h hrely

/-- **Every step keeps what is known.** -/
theorem Knows.serves {first : Nat} {p p' : Serving S E Q A X P H R}
    (hkeeps : ∀ s e, sys.admits s e → law s e → given s → given (sys.apply s e))
    (hhandler : ∀ request, arrives request → ∀ w : World S E Q A X,
      (sys.seen law).Guarded (fun _ _ => True) w → given w.state →
        (handler request).Handles sys law allowed answered request w)
    (h : Knows sys law allowed given answered first p) (hstep : sys.Serves arrives handler p p')
    (hlaw : p'.config.world.Lawful law) :
    Knows sys law allowed given answered first p' := by
  -- a program's step is interference for every handler
  have hprogram : ∀ {c c' : Config S E Q A X P} {requests : Nat → Option (Handling S E Q A H R)}
      {n : Nat} {commits : List (Handled S E Q A H)}, sys.alone.Step c c' → c'.world.Lawful law →
        Knows sys law allowed given answered first ⟨c, n, requests, commits⟩ →
          Knows sys law allowed given answered first ⟨c', n, requests, commits⟩ := by
    intro c c' requests n commits hc hlaw hknows
    rcases System.alone_state hc with hsame | ⟨e, hadmits, happly, hmem⟩
    · constructor
      · show given c'.world.state
        rw [hsame]
        exact hknows.given
      · show Sees sys law _ _ c'.world.state
        rw [hsame]
        exact hknows.seen
      · exact hknows.arrived
      · intro i hi entry hentry
        show Sees sys law _ _ c'.world.state
        rw [hsame]
        exact hknows.handled i hi entry hentry
    · constructor
      · show given c'.world.state
        rw [happly]
        exact hkeeps _ _ hadmits (hlaw _ _ (.inl hmem)) hknows.given
      · show Sees sys law _ _ c'.world.state
        rw [happly]
        exact hknows.seen.other hadmits (hlaw _ _ (.inl hmem)) fun _ _ _ _ => trivial
      · exact hknows.arrived
      · intro i hi entry hentry
        show Sees sys law _ _ c'.world.state
        rw [happly]
        exact (hknows.handled i hi entry hentry).other hadmits (hlaw _ _ (.inl hmem))
          fun _ _ => Prog.Handles.rely
  cases hstep with
  | program hc => exact hprogram hc hlaw h
  -- a handler whose process is gone never commits again, so it owes nothing more
  | down hc =>
      have hknows := hprogram hc hlaw h
      refine ⟨hknows.given, hknows.seen, hknows.arrived, ?_⟩
      intro i hi entry hentry
      obtain ⟨⟨request, heard, prog⟩, hbefore, rfl⟩ := Option.map_eq_some_iff.1 hentry
      obtain ⟨w, hguarded, hstate, hheard, hhandles⟩ := hknows.handled i hi _ hbefore
      refine ⟨w, hguarded, hstate, hheard, ?_⟩
      cases prog with
      | done value => exact hhandles
      | act | ask => exact fun _ _ _ r hr => by cases hr
  | @arrive w prog n requests commits request harrives =>
      refine ⟨h.given, h.seen, Nat.le_trans h.arrived (Nat.le_succ n), ?_⟩
      intro i hi entry hentry
      -- the newcomer has seen the world as it stands; everybody else is untouched
      by_cases hnew : i = n
      · subst hnew
        simp only [Function.update_self, Option.some.injEq] at hentry
        subst hentry
        obtain ⟨seen, hguarded, hstate, hheard, -⟩ := h.seen
        refine ⟨seen, hguarded, hstate, hheard, hhandler request harrives seen hguarded ?_⟩
        rw [hstate]
        exact h.given
      · simp only [Function.update_of_ne hnew] at hentry
        exact h.handled i hi _ hentry
  | @quiet w prog n requests commits i request heard event next hrequest hquiet =>
      refine ⟨h.given, h.seen, h.arrived, ?_⟩
      intro j hj entry hentry
      -- only the handler that read has moved on, and it read the state as it is
      by_cases hsame : j = i
      · subst hsame
        simp only [Function.update_self, Option.some.injEq] at hentry
        subst hentry
        obtain ⟨seen, hguarded, hstate, hheard, hhandles⟩ := h.handled j hj _ hrequest
        have hstate' : seen.state = w.state := hstate
        rw [← hstate'] at hquiet ⊢
        exact ⟨seen, hguarded, hstate, hheard, (hhandles seen .refl hguarded).1 hquiet⟩
      · simp only [Function.update_of_ne hsame] at hentry
        exact h.handled j hj _ hentry
  | @commit w prog n requests commits i request heard event next e hrequest he hadmits =>
      have hlawful : law w.state e := hlaw _ _ (.inr List.mem_cons_self)
      refine ⟨hkeeps _ _ hadmits hlawful h.given,
        h.seen.other hadmits hlawful fun _ _ _ _ => trivial, h.arrived, ?_⟩
      intro j hj entry hentry
      -- the handler that committed goes on from its own event; for all others it is interference
      by_cases hsame : j = i
      · subst hsame
        simp only [Function.update_self, Option.some.injEq] at hentry
        subst hentry
        obtain ⟨seen, hguarded, hstate, hheard, hhandles⟩ := h.handled j hj _ hrequest
        have hstate' : seen.state = w.state := hstate
        rw [← hstate'] at he hadmits hlawful
        obtain ⟨-, hafter⟩ := (hhandles seen .refl hguarded).2 e he
        refine ⟨seen.own (sys.seen law) e, .own hguarded trivial ⟨hadmits, hlawful⟩,
          congrArg (sys.apply · e) hstate, hheard, ?_⟩
        rw [← hstate']
        exact hafter ⟨hadmits, hlawful⟩
      · simp only [Function.update_of_ne hsame] at hentry
        exact (h.handled j hj _ hentry).other hadmits hlawful fun _ _ => Prog.Handles.rely
  | @answer w prog n requests commits i request heard question next hrequest a =>
      refine ⟨h.given, h.seen, h.arrived, ?_⟩
      intro j hj entry hentry
      by_cases hsame : j = i
      · subst hsame
        simp only [Function.update_self, Option.some.injEq] at hentry
        subst hentry
        obtain ⟨seen, hguarded, hstate, hheard, hhandles⟩ := h.handled j hj _ hrequest
        exact ⟨seen.heard question a, .heard hguarded question a, hstate,
          by rw [World.answers_heard, hheard], hhandles seen .refl hguarded a⟩
      · simp only [Function.update_of_ne hsame] at hentry
        exact h.handled j hj _ hentry

/-- An answer has its postcondition, now and ever after. -/
theorem Knows.of_answered {first : Nat} {p : Serving S E Q A X P H R}
    (h : Knows sys law allowed given answered first p) {i : Nat} (hi : first ≤ i) {request : H}
    {heard : List (Heard Q A)} {r : R} (hanswered : p.Answered i request heard r) :
    answered p.state request heard r := by
  obtain ⟨w, hguarded, hstate, hheard, hhandles⟩ := h.handled i hi _ hanswered
  rw [← hstate]
  have hpost := hhandles w .refl hguarded r rfl
  rwa [hheard] at hpost

theorem Knows.of_commit {first : Nat} {p : Serving S E Q A X P H R}
    (h : Knows sys law allowed given answered first p) {i : Nat} (hi : first ≤ i) {request : H}
    {heard : List (Heard Q A)} {event : S → Option E} {next : S → S → Prog S E Q A (Option R)} {e : E}
    (hrequest : p.requests i = some ⟨request, heard, .act event next⟩)
    (he : event p.state = some e) : allowed request heard p.state e := by
  obtain ⟨w, hguarded, hstate, hheard, hhandles⟩ := h.handled i hi _ hrequest
  rw [← hstate] at he ⊢
  have hallowed : allowed request w.answers w.state e := ((hhandles w .refl hguarded).2 e he).1
  rwa [hheard] at hallowed

end Knows

/-! ## Runs -/

/-- The configurations that the service gets into while it answers requests. -/
def System.Served (sys : System S E Q A P) (arrives : H → Prop)
    (handler : H → Prog S E Q A (Option R)) (p : Serving S E Q A X P H R) : Prop :=
  Relation.ReflTransGen (sys.Serves arrives handler) sys.unserved p

section Runs

variable {law : S → E → Prop} {allowed : H → List (Heard Q A) → S → E → Prop}
  {answered : S → H → List (Heard Q A) → R → Prop}

theorem update_eq_none {requests : Nat → Option (Handling S E Q A H R)} {i j : Nat}
    {entry : Handling S E Q A H R} (new : Option (Handling S E Q A H R))
    (hi : requests i = none) (hj : requests j = some entry) :
    Function.update requests j new i = none := by
  have hne : i ≠ j := by
    rintro rfl
    rw [hi] at hj
    cases hj
  rw [Function.update_of_ne hne, hi]

/-- Requests are numbered as they arrive. -/
theorem System.Served.fresh {p : Serving S E Q A X P H R} (h : sys.Served arrives handler p) {i : Nat}
    (hi : p.arrived ≤ i) : p.requests i = none := by
  induction h with
  | refl => rfl
  | tail _ hstep ih =>
      cases hstep with
      | program => exact ih hi
      | down => exact Option.map_eq_none_iff.2 (ih hi)
      | @arrive _ _ n =>
          have hlt : n + 1 ≤ i := hi
          have hne : i ≠ n := by omega
          have hbefore := ih (Nat.le_of_succ_le hi)
          simp only [Function.update_of_ne hne]
          exact hbefore
      | quiet hrequest | commit hrequest | answer hrequest =>
          exact update_eq_none _ (ih hi) hrequest

/-- A step leaves the store, or commits an admitted event. -/
theorem System.Serves.state {p p' : Serving S E Q A X P H R} (h : sys.Serves arrives handler p p') :
    p'.state = p.state ∨ ∃ e, sys.admits p.state e ∧ p'.state = sys.apply p.state e ∧
      ((p.state, Label.own e) ∈ p'.config.world.past ∨
        (p.state, Label.other e) ∈ p'.config.world.past) := by
  cases h with
  | program hc | down hc =>
      rcases System.alone_state hc with hsame | ⟨e, hadmits, happly, hmem⟩
      · exact .inl hsame
      · exact .inr ⟨e, hadmits, happly, .inl hmem⟩
  | arrive | quiet | answer => exact .inl rfl
  | @commit _ _ _ _ _ _ _ _ _ _ e _ _ hadmits =>
      exact .inr ⟨e, hadmits, rfl, .inr List.mem_cons_self⟩

/-- A run from here leads to a run from the start. -/
theorem System.Served.later {p p' : Serving S E Q A X P H R} (h : sys.Served arrives handler p)
    (hrun : Relation.ReflTransGen (sys.Serves arrives handler) p p') : sys.Served arrives handler p' :=
  Relation.ReflTransGen.trans h hrun

/-- What every lawful event keeps, a run keeps. -/
theorem System.Served.keeps (given : S → Prop)
    (hlaw : ∀ p : Serving S E Q A X P H R, sys.Served arrives handler p → p.config.world.Lawful law)
    (hkeeps : ∀ s e, sys.admits s e → law s e → given s → given (sys.apply s e))
    {p p' : Serving S E Q A X P H R} (h : sys.Served arrives handler p) (hgiven : given p.state)
    (hrun : Relation.ReflTransGen (sys.Serves arrives handler) p p') : given p'.state := by
  induction hrun with
  | refl => exact hgiven
  | tail hbefore hstep ih =>
      rcases hstep.state with hsame | ⟨e, hadmits, happly, hmem⟩
      · rw [hsame]
        exact ih
      · rw [happly]
        exact hkeeps _ _ hadmits (hlaw _ ((h.later hbefore).tail hstep) _ _ hmem) ih

variable (hlaw : ∀ p : Serving S E Q A X P H R, sys.Served arrives handler p →
    p.config.world.Lawful law)
  (hhandler : ∀ request, arrives request → ∀ w : World S E Q A X,
    (sys.seen law).Guarded (fun _ _ => True) w →
      (handler request).Handles sys law allowed answered request w)

include hlaw hhandler

theorem System.Served.knows {p : Serving S E Q A X P H R} (h : sys.Served arrives handler p) :
    Knows sys law allowed (fun _ => True) answered 0 p := by
  induction h with
  | refl =>
      refine ⟨trivial, ⟨⟨sys.initial, []⟩, .initial, rfl, rfl, trivial⟩, Nat.le_refl 0, ?_⟩
      intro i _ entry hentry
      cases hentry
  | tail hbefore hstep ih =>
      exact ih.serves (fun _ _ _ _ _ => trivial) (fun request harrives w hguarded _ =>
        hhandler request harrives w hguarded) hstep (hlaw _ (hbefore.tail hstep))

/-- **Answers.** Each has its postcondition, now and ever after. -/
theorem System.Served.postcondition {p : Serving S E Q A X P H R} (h : sys.Served arrives handler p)
    {i : Nat} {request : H} {heard : List (Heard Q A)} {r : R}
    (hanswered : p.Answered i request heard r) : answered p.state request heard r :=
  (h.knows hlaw hhandler).of_answered (Nat.zero_le i) hanswered

/-- **Events.** Each that a handler committed was allowed by what the handler had heard, and the others
of the history are the handlers. -/
theorem System.Served.committed {p : Serving S E Q A X P H R} (h : sys.Served arrives handler p) :
    (∀ c ∈ p.commits, allowed c.request c.heard c.state c.event) ∧
      ∀ s e, (s, .other e) ∈ p.config.world.past →
        ∃ c ∈ p.commits, c.state = s ∧ c.event = e := by
  induction h with
  | refl => exact ⟨fun c hc => (by cases hc), fun s e hmem => by cases hmem⟩
  | tail hbefore hstep ih =>
      have hknows := System.Served.knows hlaw hhandler hbefore
      obtain ⟨hallowed, hpast⟩ := ih
      cases hstep with
      | program hc | down hc =>
          exact ⟨hallowed, fun s e hmem => hpast s e (System.alone_past hc hmem)⟩
      | arrive | quiet | answer => exact ⟨hallowed, hpast⟩
      | @commit w prog n requests commits i request heard event next e hrequest he hadmits =>
          refine ⟨fun c hc => ?_, fun s e' hmem => ?_⟩
          · rcases List.mem_cons.1 hc with rfl | hold
            · exact hknows.of_commit (Nat.zero_le i) hrequest he
            · exact hallowed c hold
          · rcases List.mem_cons.1 hmem with heq | hold
            · obtain ⟨rfl, hlabel⟩ := Prod.mk.inj heq
              obtain rfl := Label.other.inj hlabel
              exact ⟨_, List.mem_cons_self, rfl, rfl⟩
            · obtain ⟨c, hc, hrest⟩ := hpast s e' hold
              exact ⟨c, List.mem_cons_of_mem _ hc, hrest⟩

/-- **Refinement.** A service whose handlers commit what it allows to others is the service that has
these others beside it. -/
theorem System.Served.reach
    (hother : ∀ request heard s e, allowed request heard s e → sys.admits s e → sys.other s e)
    {p : Serving S E Q A X P H R} (h : sys.Served arrives handler p) : sys.Reach p.config := by
  induction h with
  | refl => exact .refl
  | tail hbefore hstep ih =>
      have hknows := System.Served.knows hlaw hhandler hbefore
      cases hstep with
      | program hc | down hc => exact ih.tail (System.alone_step hc)
      | arrive | quiet | answer => exact ih
      | @commit w prog n requests commits i request heard event next e hrequest he hadmits =>
          have hallowed := hknows.of_commit (Nat.zero_le i) hrequest he
          exact ih.tail (.other (hother _ _ _ _ hallowed hadmits))

omit hlaw hhandler

/-- **From a moment on.** What the store has come to by then, if the events keep it, every handler of a
later request can rely on. -/
theorem System.Served.answered_since {given : S → Prop}
    {answered' : S → H → List (Heard Q A) → R → Prop}
    (hlaw : ∀ p : Serving S E Q A X P H R, sys.Served arrives handler p → p.config.world.Lawful law)
    (hhandler : ∀ request, arrives request → ∀ w : World S E Q A X,
      (sys.seen law).Guarded (fun _ _ => True) w →
        (handler request).Handles sys law allowed answered request w)
    (hkeeps : ∀ s e, sys.admits s e → law s e → given s → given (sys.apply s e))
    (hgiven : ∀ request, arrives request → ∀ w : World S E Q A X,
      (sys.seen law).Guarded (fun _ _ => True) w → given w.state →
        (handler request).Handles sys law allowed answered' request w)
    {p p' : Serving S E Q A X P H R} (h : sys.Served arrives handler p) (hstate : given p.state)
    (hrun : Relation.ReflTransGen (sys.Serves arrives handler) p p') {i : Nat} (hi : p.arrived ≤ i)
    {request : H} {heard : List (Heard Q A)} {r : R} (hanswered : p'.Answered i request heard r) :
    answered' p'.state request heard r := by
  have hstart : Knows sys law allowed given answered' p.arrived p :=
    .start hstate (h.knows hlaw hhandler).seen fun i hi => h.fresh hi
  have hend : Knows sys law allowed given answered' p.arrived p' := by
    clear hanswered
    induction hrun with
    | refl => exact hstart
    | tail hbefore hstep ih =>
        exact ih.serves hkeeps hgiven hstep (hlaw _ ((h.later hbefore).tail hstep))
  exact hend.of_answered hi hanswered

end Runs

/-- With nothing else happening the handler comes to commit `e` in this state, and commits nothing
before. -/
def Prog.Offers (s : S) (e : E) : Prog S E Q A (Option R) → Prop
  | .done _ => False
  | .act event next => event s = some e ∨ event s = none ∧ Offers s e (next s s)
  | .ask _ next => ∃ answer, Offers s e (next answer)

/-- What a handler offers, a run can take. -/
theorem Prog.Offers.serves {handling : Prog S E Q A (Option R)} {w : World S E Q A X} {e : E}
    (h : handling.Offers w.state e) (hadmits : sys.admits w.state e) {prog : Prog S E Q A P}
    {arrived i : Nat} {requests : Nat → Option (Handling S E Q A H R)}
    {commits : List (Handled S E Q A H)} {request : H} {heard : List (Heard Q A)}
    (hi : requests i = some ⟨request, heard, handling⟩) :
    ∃ requests' commits', Relation.ReflTransGen (sys.Serves arrives handler)
      ⟨⟨w, .running prog⟩, arrived, requests, commits⟩
      ⟨⟨w.other sys e, .running prog⟩, arrived, requests', commits'⟩ := by
  induction handling generalizing requests heard with
  | done value => exact absurd h id
  | act event next ih =>
      rcases h with he | ⟨he, hlater⟩
      · exact ⟨_, _, .single (.commit hi he hadmits)⟩
      · obtain ⟨requests', commits', hrun⟩ := ih _ _ hlater
          (Function.update_self i (some ⟨request, heard, next w.state w.state⟩) requests)
        exact ⟨requests', commits', .head (.quiet hi he) hrun⟩
  | ask question next ih =>
      obtain ⟨answer, hlater⟩ := h
      obtain ⟨requests', commits', hrun⟩ := ih answer hlater
        (Function.update_self i (some ⟨request, ⟨question, answer⟩ :: heard, next answer⟩) requests)
      exact ⟨requests', commits', .head (.answer hi answer) hrun⟩

/-- A step is the program's, or of the others beside it. -/
theorem System.Step.alone_or {c c' : Config S E Q A X P} (h : sys.Step c c') :
    sys.alone.Step c c' ∨ ∃ w prog e, sys.other w.state e ∧ c = ⟨w, .running prog⟩ ∧
      c' = ⟨w.other sys e, .running prog⟩ := by
  cases h with
  | other h => exact .inr ⟨_, _, _, h, rfl, rfl⟩
  | outside x => exact .inl (.outside x)
  | quiet h => exact .inl (.quiet h)
  | own h admitted => exact .inl (.own h admitted)
  | answer a => exact .inl (.answer a)
  | goto point => exact .inl (.goto point)
  | abort h => exact .inl (.abort h)
  | crash => exact .inl .crash
  | start => exact .inl .start

/-- **Completeness.** If for each event of the others some request can arrive whose handler offers it,
the service with these others beside it is no more than the service with its handlers. -/
theorem System.Reach.served {c : Config S E Q A X P} (h : sys.Reach c)
    (hothers : ∀ s e, sys.other s e →
      sys.admits s e ∧ ∃ request, arrives request ∧ (handler request).Offers s e) :
    ∃ p : Serving S E Q A X P H R, sys.Served arrives handler p ∧ p.config = c := by
  induction h with
  | refl => exact ⟨sys.unserved, .refl, rfl⟩
  | @tail before after _ hstep ih =>
      obtain ⟨⟨config, arrived, requests, commits⟩, hserved, rfl⟩ := ih
      rcases hstep.alone_or with halone | ⟨w, prog, e, hother, hconfig, rfl⟩
      · obtain ⟨w, task⟩ := after
        cases task with
        | down => exact ⟨_, hserved.tail (.down halone), rfl⟩
        | running prog => exact ⟨_, hserved.tail (.program halone), rfl⟩
      · obtain rfl : config = _ := hconfig
        obtain ⟨hadmits, request, harrives, hoffers⟩ := hothers _ _ hother
        obtain ⟨requests', commits', hrun⟩ := hoffers.serves hadmits
          (Function.update_self arrived (some ⟨request, [], handler request⟩) requests)
        exact ⟨_, (hserved.tail (.arrive harrives)).trans hrun, rfl⟩

/-- What a handler can do while nothing else happens, a run can do. -/
theorem Prog.CanEnd.serves {post : World S E Q A X → Option R → Prop}
    {handling : Prog S E Q A (Option R)} {seen : World S E Q A X} (h : handling.CanEnd sys post seen)
    {w : World S E Q A X} {prog : Prog S E Q A P} {arrived i : Nat}
    {requests : Nat → Option (Handling S E Q A H R)} {commits : List (Handled S E Q A H)}
    {request : H} {heard : List (Heard Q A)} (hstate : w.state = seen.state)
    (hi : requests i = some ⟨request, heard, handling⟩) :
    ∃ w' seen' value heard' commits', post seen' value ∧ w'.state = seen'.state ∧
      Relation.ReflTransGen (sys.Serves arrives handler)
        ⟨⟨w, .running prog⟩, arrived, requests, commits⟩
        ⟨⟨w', .running prog⟩, arrived,
          Function.update requests i (some ⟨request, heard', .done value⟩), commits'⟩ := by
  induction handling generalizing seen w requests heard commits with
  | done value =>
      refine ⟨w, seen, value, heard, commits, h, hstate, ?_⟩
      rw [← hi, Function.update_eq_self]
  | act event next ih =>
      cases he : event seen.state with
      | none =>
          simp only [Prog.CanEnd, he] at h
          rw [← hstate] at h he
          obtain ⟨w', seen', value, heard', commits', hpost, hsame, hrun⟩ := ih _ _ h hstate
            (Function.update_self i (some ⟨request, heard, next w.state w.state⟩) requests)
          rw [Function.update_idem] at hrun
          exact ⟨w', seen', value, heard', commits', hpost, hsame, .head (.quiet hi he) hrun⟩
      | some e =>
          simp only [Prog.CanEnd, he] at h
          rw [← hstate] at h he
          have hafter : (w.other sys e).state = (seen.own sys e).state := congrArg (sys.apply · e) hstate
          obtain ⟨w', seen', value, heard', commits', hpost, hsame, hrun⟩ := ih _ _ h.2 hafter
            (Function.update_self i
              (some ⟨request, heard, next w.state (sys.apply w.state e)⟩) requests)
          rw [Function.update_idem] at hrun
          exact ⟨w', seen', value, heard', commits', hpost, hsame, .head (.commit hi he h.1) hrun⟩
  | ask question next ih =>
      obtain ⟨answer, h⟩ := h
      obtain ⟨w', seen', value, heard', commits', hpost, hsame, hrun⟩ := ih answer h hstate
        (Function.update_self i (some ⟨request, ⟨question, answer⟩ :: heard, next answer⟩) requests)
      rw [Function.update_idem] at hrun
      exact ⟨w', seen', value, heard', commits', hpost, hsame, .head (.answer hi answer) hrun⟩

/-- A request arrives and is answered. -/
theorem Prog.CanEnd.served {post : World S E Q A X → Option R → Prop} {request : H}
    (harrives : arrives request) {seen : World S E Q A X}
    (h : (handler request).CanEnd sys post seen) {p : Serving S E Q A X P H R} {w : World S E Q A X}
    {prog : Prog S E Q A P} (hp : p.config = ⟨w, .running prog⟩) (hstate : w.state = seen.state) :
    ∃ (p' : Serving S E Q A X P H R) (w' seen' : World S E Q A X) (value : Option R)
      (heard : List (Heard Q A)), Relation.ReflTransGen (sys.Serves arrives handler) p p' ∧
        post seen' value ∧ p'.config = ⟨w', .running prog⟩ ∧ w'.state = seen'.state ∧
          p'.requests p.arrived = some ⟨request, heard, .done value⟩ := by
  obtain ⟨config, arrived, requests, commits⟩ := p
  obtain rfl : config = _ := hp
  obtain ⟨w', seen', value, heard, commits', hpost, hsame, hrun⟩ :=
    h.serves hstate (Function.update_self arrived (some ⟨request, [], handler request⟩) requests)
  exact ⟨_, w', seen', value, heard, .head (.arrive harrives) hrun, hpost, rfl, hsame,
    Function.update_self _ _ _⟩

end UnicityBridge.Lib
