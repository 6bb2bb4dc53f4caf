import Mathlib.Logic.Relation

/-!
# Programs over a shared store

A program reads a state that others change too, commits events to it, and asks questions of the
outside. It may be cut off at any step and started again. `Prog.Ensures` says that a program commits
only events that a guard allows, whatever the others do and whatever is answered, and that it ends
where its postcondition holds. `Reach.sound` carries this from the pieces of a service to its runs:
each run is a history of guarded events (`Guarded`).
-/

set_option autoImplicit false

namespace UnicityBridge.Lib

universe u

/-- A program over states `S` with events `E`, which asks questions `q : Q` with answers in `A q`.
An `act` is atomic: it commits the event that the state calls for, if any, and goes on with the states
before and after. -/
inductive Prog (S E Q : Type) (A : Q → Type) (α : Type u) where
  | done (value : α)
  | act (event : S → Option E) (next : S → S → Prog S E Q A α)
  | ask (question : Q) (next : A question → Prog S E Q A α)

namespace Prog

variable {S E Q : Type} {A : Q → Type} {α β : Type u}

/-- One program after another. -/
def bind : Prog S E Q A α → (α → Prog S E Q A β) → Prog S E Q A β
  | done value, rest => rest value
  | act event next, rest => act event fun before after => (next before after).bind rest
  | ask question next, rest => ask question fun answer => (next answer).bind rest

instance : Monad (Prog S E Q A) where
  pure := done
  bind := bind

/-- Ask a question and go on with its answer. -/
def query (question : Q) : Prog S E Q A (A question) := ask question done

/-- Read the state. -/
def read {α : Type} (f : S → α) : Prog S E Q A α := act (fun _ => none) fun state _ => done (f state)

/-- Commit an event. -/
def commit (event : E) : Prog S E Q A Unit := act (fun _ => some event) fun _ _ => done ()

end Prog

/-- What a moment of a run is: an event of the program or of the others, an answer that was heard,
something that happened outside, or a start of the program. -/
inductive Label (E Q : Type) (A : Q → Type) (X : Type) where
  | own (event : E)
  | other (event : E)
  | heard (question : Q) (answer : A question)
  | outside (happening : X)
  | started

/-- A state with its history, the latest moment first, each with the state that it found. -/
structure World (S E Q : Type) (A : Q → Type) (X : Type) where
  state : S
  past : List (S × Label E Q A X)

/-- A program in pieces, with the state it works on. -/
structure System (S E Q : Type) (A : Q → Type) (P : Type) where
  initial : S
  apply : S → E → S
  /-- the events that the program can commit -/
  admits : S → E → Prop
  /-- the events that the others can commit -/
  other : S → E → Prop
  /-- the program may be given up while it waits for the answer -/
  awaits : Q → Bool
  code : P → Prog S E Q A P
  /-- where the program starts -/
  opening : P
  /-- what follows a program that was given up -/
  stopping : P

variable {S E Q : Type} {A : Q → Type} {X P : Type}

namespace World

/-- The world after the task's own event. -/
def own (sys : System S E Q A P) (w : World S E Q A X) (e : E) : World S E Q A X :=
  ⟨sys.apply w.state e, (w.state, .own e) :: w.past⟩

/-- The world after an event of somebody else. -/
def other (sys : System S E Q A P) (w : World S E Q A X) (e : E) : World S E Q A X :=
  ⟨sys.apply w.state e, (w.state, .other e) :: w.past⟩

/-- The world after an answer. -/
def heard (w : World S E Q A X) (question : Q) (answer : A question) : World S E Q A X :=
  ⟨w.state, (w.state, .heard question answer) :: w.past⟩

/-- The world after something beyond the state. -/
def outside (w : World S E Q A X) (x : X) : World S E Q A X :=
  ⟨w.state, (w.state, .outside x) :: w.past⟩

/-- The world after a start. -/
def started (w : World S E Q A X) : World S E Q A X := ⟨w.state, (w.state, .started) :: w.past⟩

end World

/-! ## Runs -/

/-- What runs: nothing, or the rest of a program. -/
inductive Task (S E Q : Type) (A : Q → Type) (P : Type) where
  | down
  | running (prog : Prog S E Q A P)

/-- A configuration: the world and what runs in it. -/
structure Config (S E Q : Type) (A : Q → Type) (X P : Type) where
  world : World S E Q A X
  task : Task S E Q A P

/-- One step of a run. -/
inductive System.Step (sys : System S E Q A P) : Config S E Q A X P → Config S E Q A X P → Prop where
  | other {w : World S E Q A X} {prog : Prog S E Q A P} {e : E} (h : sys.other w.state e) :
      Step sys ⟨w, .running prog⟩ ⟨w.other sys e, .running prog⟩
  | outside {w : World S E Q A X} {task : Task S E Q A P} (x : X) :
      Step sys ⟨w, task⟩ ⟨w.outside x, task⟩
  | quiet {w : World S E Q A X} {event : S → Option E} {next : S → S → Prog S E Q A P}
      (h : event w.state = none) :
      Step sys ⟨w, .running (.act event next)⟩ ⟨w, .running (next w.state w.state)⟩
  | own {w : World S E Q A X} {event : S → Option E} {next : S → S → Prog S E Q A P} {e : E}
      (h : event w.state = some e) (admitted : sys.admits w.state e) :
      Step sys ⟨w, .running (.act event next)⟩
        ⟨w.own sys e, .running (next w.state (sys.apply w.state e))⟩
  | answer {w : World S E Q A X} {question : Q} {next : A question → Prog S E Q A P}
      (answer : A question) :
      Step sys ⟨w, .running (.ask question next)⟩ ⟨w.heard question answer, .running (next answer)⟩
  | goto {w : World S E Q A X} (point : P) :
      Step sys ⟨w, .running (.done point)⟩ ⟨w, .running (sys.code point)⟩
  | abort {w : World S E Q A X} {question : Q} {next : A question → Prog S E Q A P}
      (h : sys.awaits question = true) :
      Step sys ⟨w, .running (.ask question next)⟩ ⟨w, .running (sys.code sys.stopping)⟩
  | crash {w : World S E Q A X} {prog : Prog S E Q A P} :
      Step sys ⟨w, .running prog⟩ ⟨w, .down⟩
  | start {w : World S E Q A X} :
      Step sys ⟨w, .down⟩ ⟨w.started, .running (sys.code sys.opening)⟩

/-- The configurations that the system gets into, from a program that was never started. -/
def System.Reach (sys : System S E Q A P) (c : Config S E Q A X P) : Prop :=
  Relation.ReflTransGen sys.Step ⟨⟨sys.initial, []⟩, .down⟩ c

/-! ## Histories -/

variable (sys : System S E Q A P)

/-- What may happen between two steps of a program: events of the others, and happenings outside. -/
inductive System.Interferes : World S E Q A X → World S E Q A X → Prop where
  | other {w : World S E Q A X} {e : E} (h : sys.other w.state e) : Interferes w (w.other sys e)
  | outside {w : World S E Q A X} (x : X) : Interferes w (w.outside x)

/-- What others may do between two steps of the task. -/
def System.Rely : World S E Q A X → World S E Q A X → Prop := Relation.ReflTransGen sys.Interferes

/-- A history in which the guard allowed each event of the program. -/
inductive System.Guarded (guard : World S E Q A X → E → Prop) : World S E Q A X → Prop where
  | initial : Guarded guard ⟨sys.initial, []⟩
  | own {w : World S E Q A X} {e : E} (before : Guarded guard w) (allowed : guard w e)
      (admitted : sys.admits w.state e) : Guarded guard (w.own sys e)
  | other {w : World S E Q A X} {e : E} (before : Guarded guard w) (h : sys.other w.state e) :
      Guarded guard (w.other sys e)
  | heard {w : World S E Q A X} (before : Guarded guard w) (question : Q) (answer : A question) :
      Guarded guard (w.heard question answer)
  | outside {w : World S E Q A X} (before : Guarded guard w) (x : X) : Guarded guard (w.outside x)
  | started {w : World S E Q A X} (before : Guarded guard w) : Guarded guard w.started

variable {sys} {guard : World S E Q A X → E → Prop}

theorem System.Guarded.rely {w w' : World S E Q A X} (h : sys.Guarded guard w)
    (hrely : sys.Rely w w') : sys.Guarded guard w' := by
  induction hrely with
  | refl => exact h
  | tail _ hstep ih =>
      cases hstep with
      | other he => exact .other ih he
      | outside x => exact .outside ih x

/-- **Induction over a guarded history**: what holds at first, and what every event and every other
moment keeps, holds of it. -/
theorem System.Guarded.invariant {I : World S E Q A X → Prop} (hinitial : I ⟨sys.initial, []⟩)
    (hown : ∀ w e, sys.Guarded guard w → I w → guard w e → sys.admits w.state e → I (w.own sys e))
    (hother : ∀ w e, sys.Guarded guard w → I w → sys.other w.state e → I (w.other sys e))
    (hbeside : ∀ (w : World S E Q A X) (moment : Label E Q A X), sys.Guarded guard w → I w →
      (∀ e, moment ≠ .own e) → (∀ e, moment ≠ .other e) →
      I ⟨w.state, (w.state, moment) :: w.past⟩)
    {w : World S E Q A X} (h : sys.Guarded guard w) : I w := by
  induction h with
  | initial => exact hinitial
  | own hbefore hallowed hadmits ih => exact hown _ _ hbefore ih hallowed hadmits
  | other hbefore he ih => exact hother _ _ hbefore ih he
  | heard hbefore question answer ih =>
      exact hbeside _ (.heard question answer) hbefore ih (fun _ => by simp) fun _ => by simp
  | outside hbefore x ih =>
      exact hbeside _ (.outside x) hbefore ih (fun _ => by simp) fun _ => by simp
  | started hbefore ih => exact hbeside _ .started hbefore ih (fun _ => by simp) fun _ => by simp

/-- **Looking back**: each event of the program was allowed by the history before it. -/
theorem System.Guarded.before {w : World S E Q A X} (h : sys.Guarded guard w) {state : S} {e : E}
    (hmem : (state, .own e) ∈ w.past) :
    ∃ w₀, sys.Guarded guard w₀ ∧ w₀.state = state ∧ w₀.past ⊆ w.past ∧ guard w₀ e ∧
      sys.admits state e := by
  induction h with
  | initial => cases hmem
  | @own w e' hbefore hallowed hadmits ih =>
      rcases List.mem_cons.1 hmem with heq | hold
      · obtain ⟨rfl, hevent⟩ := Prod.mk.inj heq
        obtain rfl := Label.own.inj hevent
        exact ⟨w, hbefore, rfl, List.subset_cons_self _ _, hallowed, hadmits⟩
      · obtain ⟨w₀, hw₀, hstate, hpast, hrest⟩ := ih hold
        exact ⟨w₀, hw₀, hstate, List.subset_cons_of_subset _ hpast, hrest⟩
  | other _ _ ih | heard _ _ _ ih | outside _ _ ih | started _ ih =>
      have hold := (List.mem_cons.1 hmem).resolve_left fun heq => by cases heq
      obtain ⟨w₀, hw₀, hstate, hpast, hrest⟩ := ih hold
      exact ⟨w₀, hw₀, hstate, List.subset_cons_of_subset _ hpast, hrest⟩

/-- One moment more of a guarded history. -/
inductive System.Grows (sys : System S E Q A P) (guard : World S E Q A X → E → Prop) :
    World S E Q A X → World S E Q A X → Prop where
  | own {w : World S E Q A X} {e : E} (allowed : guard w e) (admitted : sys.admits w.state e) :
      Grows sys guard w (w.own sys e)
  | other {w : World S E Q A X} {e : E} (h : sys.other w.state e) : Grows sys guard w (w.other sys e)
  | heard {w : World S E Q A X} (question : Q) (answer : A question) :
      Grows sys guard w (w.heard question answer)
  | outside {w : World S E Q A X} (x : X) : Grows sys guard w (w.outside x)
  | started {w : World S E Q A X} : Grows sys guard w w.started

theorem System.Grows.past {w w' : World S E Q A X} (h : sys.Grows guard w w') :
    w.past ⊆ w'.past := by
  cases h with
  | own | other | heard | outside | started => exact List.subset_cons_self _ _

theorem System.Guarded.grows {w w' : World S E Q A X} (h : sys.Guarded guard w)
    (hgrows : Relation.ReflTransGen (sys.Grows guard) w w') : sys.Guarded guard w' := by
  induction hgrows with
  | refl => exact h
  | tail _ hstep ih =>
      cases hstep with
      | own hallowed hadmits => exact .own ih hallowed hadmits
      | other he => exact .other ih he
      | heard question answer => exact .heard ih question answer
      | outside x => exact .outside ih x
      | started => exact .started ih

/-- **Induction over interference**: what every single step keeps, all of them keep. -/
theorem System.Rely.keeps {holds : World S E Q A X → World S E Q A X → Prop}
    (hrefl : ∀ w, holds w w)
    (htrans : ∀ w w' w'', holds w w' → holds w' w'' → holds w w'')
    (hother : ∀ w e, sys.Guarded guard w → sys.other w.state e → holds w (w.other sys e))
    (houtside : ∀ w x, holds w (w.outside x)) {w w' : World S E Q A X}
    (hguarded : sys.Guarded guard w) (h : sys.Rely w w') : holds w w' := by
  induction h with
  | refl => exact hrefl w
  | tail hfirst hstep ih =>
      apply htrans _ _ _ ih
      cases hstep with
      | other he => exact hother _ _ (hguarded.rely hfirst) he
      | outside x => exact houtside _ x

/-! ## What a program ensures -/

namespace Prog

variable (sys guard) {α β : Type}

/-- Run from `w`, the program commits only events that `allowed` holds of, and if it ends, it ends
where `post` holds. Each step starts with whatever the others did meanwhile. -/
def Ensures (allowed : World S E Q A X → E → Prop) (post : World S E Q A X → α → Prop) :
    Prog S E Q A α → World S E Q A X → Prop
  | done value, w => ∀ w', sys.Rely w w' → sys.Guarded guard w' → post w' value
  | act event next, w => ∀ w', sys.Rely w w' → sys.Guarded guard w' →
      (event w'.state = none → Ensures allowed post (next w'.state w'.state) w') ∧
        ∀ e, event w'.state = some e → allowed w' e ∧
          (sys.admits w'.state e →
            Ensures allowed post (next w'.state (sys.apply w'.state e)) (w'.own sys e))
  | ask question next, w => ∀ w', sys.Rely w w' → sys.Guarded guard w' →
      ∀ answer, Ensures allowed post (next answer) (w'.heard question answer)

variable {sys guard} {allowed : World S E Q A X → E → Prop}

/-- What is ensured before some interference is ensured after it. -/
theorem Ensures.rely {post : World S E Q A X → α → Prop} {prog : Prog S E Q A α}
    {w w' : World S E Q A X} (h : prog.Ensures sys guard allowed post w) (hrely : sys.Rely w w') :
    prog.Ensures sys guard allowed post w' := by
  cases prog with
  | done value => exact fun later hlater => h later (hrely.trans hlater)
  | act event next => exact fun later hlater => h later (hrely.trans hlater)
  | ask question next => exact fun later hlater => h later (hrely.trans hlater)

/-- It is enough to look at the worlds that the others can lead to. -/
theorem Ensures.of_rely {post : World S E Q A X → α → Prop} {prog : Prog S E Q A α}
    {w : World S E Q A X}
    (h : ∀ w', sys.Rely w w' → sys.Guarded guard w' → prog.Ensures sys guard allowed post w') :
    prog.Ensures sys guard allowed post w := by
  cases prog with
  | done value => exact fun later hlater hguarded => h later hlater hguarded later .refl hguarded
  | act event next => exact fun later hlater hguarded => h later hlater hguarded later .refl hguarded
  | ask question next =>
      exact fun later hlater hguarded => h later hlater hguarded later .refl hguarded

/-- Sequencing. -/
theorem Ensures.bind {middle : World S E Q A X → α → Prop} {post : World S E Q A X → β → Prop}
    {prog : Prog S E Q A α} {rest : α → Prog S E Q A β} {w : World S E Q A X}
    (h : prog.Ensures sys guard allowed middle w)
    (hrest : ∀ w' value, middle w' value → sys.Guarded guard w' →
      (rest value).Ensures sys guard allowed post w') :
    (prog >>= rest).Ensures sys guard allowed post w := by
  show (prog.bind rest).Ensures sys guard allowed post w
  induction prog generalizing w with
  | done value =>
      exact .of_rely fun w' hrely hguarded => hrest w' value (h w' hrely hguarded) hguarded
  | act event next ih =>
      intro w' hrely hguarded
      obtain ⟨hquiet, hevent⟩ := h w' hrely hguarded
      refine ⟨fun hnone => ih _ _ (hquiet hnone), fun e he => ?_⟩
      obtain ⟨hallowed, hafter⟩ := hevent e he
      exact ⟨hallowed, fun hadmits => ih _ _ (hafter hadmits)⟩
  | ask question next ih =>
      intro w' hrely hguarded answer
      exact ih answer (h w' hrely hguarded answer)

/-- A weaker postcondition, and a weaker guard. -/
theorem Ensures.mono {post post' : World S E Q A X → α → Prop}
    {allowed' : World S E Q A X → E → Prop} {prog : Prog S E Q A α} {w : World S E Q A X}
    (h : prog.Ensures sys guard allowed post w)
    (hallowed : ∀ w' e, allowed w' e → allowed' w' e)
    (hpost : ∀ w' value, post w' value → sys.Guarded guard w' → post' w' value) :
    prog.Ensures sys guard allowed' post' w := by
  induction prog generalizing w with
  | done value =>
      intro w' hrely hguarded
      exact hpost w' value (h w' hrely hguarded) hguarded
  | act event next ih =>
      intro w' hrely hguarded
      obtain ⟨hquiet, hevent⟩ := h w' hrely hguarded
      refine ⟨fun hnone => ih _ _ (hquiet hnone), fun e he => ?_⟩
      obtain ⟨hguard, hafter⟩ := hevent e he
      exact ⟨hallowed w' e hguard, fun hadmits => ih _ _ (hafter hadmits)⟩
  | ask question next ih =>
      intro w' hrely hguarded answer
      exact ih answer (h w' hrely hguarded answer)

theorem ensures_pure {post : World S E Q A X → α → Prop} {value : α} {w : World S E Q A X}
    (h : ∀ w', sys.Rely w w' → sys.Guarded guard w' → post w' value) :
    (pure value : Prog S E Q A α).Ensures sys guard allowed post w := h

/-- Read, then go on. -/
theorem ensures_read {post : World S E Q A X → β → Prop} {f : S → α} {rest : α → Prog S E Q A β}
    {w : World S E Q A X}
    (h : ∀ w', sys.Rely w w' → sys.Guarded guard w' →
      (rest (f w'.state)).Ensures sys guard allowed post w') :
    (read f >>= rest).Ensures sys guard allowed post w := by
  intro w' hrely hguarded
  refine ⟨fun _ => h w' hrely hguarded, ?_⟩
  intro e he
  cases he

/-- Commit, then go on. -/
theorem ensures_commit {post : World S E Q A X → β → Prop} {e : E} {rest : Unit → Prog S E Q A β}
    {w : World S E Q A X}
    (h : ∀ w', sys.Rely w w' → sys.Guarded guard w' → allowed w' e ∧
      (sys.admits w'.state e → (rest ()).Ensures sys guard allowed post (w'.own sys e))) :
    (commit e >>= rest).Ensures sys guard allowed post w := by
  intro w' hrely hguarded
  constructor
  · intro hnone
    cases hnone
  · intro e' he'
    obtain rfl := Option.some.inj he'
    exact h w' hrely hguarded

/-- Ask, then go on. -/
theorem ensures_query {question : Q} {post : World S E Q A X → β → Prop}
    {rest : A question → Prog S E Q A β} {w : World S E Q A X}
    (h : ∀ w', sys.Rely w w' → sys.Guarded guard w' → ∀ answer,
      (rest answer).Ensures sys guard allowed post (w'.heard question answer)) :
    (query question >>= rest).Ensures sys guard allowed post w := by
  intro w' hrely hguarded answer
  exact h w' hrely hguarded answer

/-- **The frame rule.** A relation that interference, answers and the allowed events keep holds from
the start of a program to its end. -/
theorem Ensures.frame {kept : World S E Q A X → World S E Q A X → Prop}
    (hrefl : ∀ w, kept w w)
    (htrans : ∀ w w' w'', kept w w' → kept w' w'' → kept w w'')
    (hrely : ∀ w w', sys.Guarded guard w → sys.Rely w w' → kept w w')
    (hheard : ∀ (w : World S E Q A X) question answer, kept w (w.heard question answer))
    (hown : ∀ w e, sys.Guarded guard w → allowed w e → sys.admits w.state e → kept w (w.own sys e))
    (hguard : ∀ w e, allowed w e → guard w e)
    {post : World S E Q A X → α → Prop} {prog : Prog S E Q A α} {w : World S E Q A X}
    (hguarded : sys.Guarded guard w) (h : prog.Ensures sys guard allowed post w) :
    prog.Ensures sys guard allowed (fun w' value => post w' value ∧ kept w w') w := by
  -- by induction over the program, with what was kept since the start
  have hall : ∀ {prog : Prog S E Q A α} {w' : World S E Q A X}, sys.Guarded guard w' → kept w w' →
      prog.Ensures sys guard allowed post w' →
      prog.Ensures sys guard allowed (fun w'' value => post w'' value ∧ kept w w'') w' := by
    intro prog
    induction prog with
    | done value =>
        intro w' hguarded' hkept hprog later hlater hlaterGuarded
        exact ⟨hprog later hlater hlaterGuarded, htrans _ _ _ hkept (hrely _ _ hguarded' hlater)⟩
    | act event next ih =>
        intro w' hguarded' hkept hprog later hlater hlaterGuarded
        have hlaterKept := htrans _ _ _ hkept (hrely _ _ hguarded' hlater)
        obtain ⟨hquiet, hevent⟩ := hprog later hlater hlaterGuarded
        refine ⟨fun hnone => ih _ _ hlaterGuarded hlaterKept (hquiet hnone), fun e he => ?_⟩
        obtain ⟨hallowed, hafter⟩ := hevent e he
        refine ⟨hallowed, fun hadmits => ?_⟩
        apply ih _ _ (.own hlaterGuarded (hguard _ _ hallowed) hadmits) _ (hafter hadmits)
        exact htrans _ _ _ hlaterKept (hown _ _ hlaterGuarded hallowed hadmits)
    | ask question next ih =>
        intro w' hguarded' hkept hprog later hlater hlaterGuarded answer
        have hlaterKept := htrans _ _ _ hkept (hrely _ _ hguarded' hlater)
        apply ih answer (.heard hlaterGuarded question answer) _ (hprog later hlater hlaterGuarded answer)
        exact htrans _ _ _ hlaterKept (hheard _ _ _)
  exact hall hguarded (hrefl w) h

end Prog

/-! ## From the pieces to the runs -/

/-- What is known of a configuration: its history is guarded, and what is left of the running program
ends at a point whose precondition holds. -/
def System.Holds (sys : System S E Q A P) (guard : World S E Q A X → E → Prop)
    (pre : P → World S E Q A X → Prop) (c : Config S E Q A X P) : Prop :=
  sys.Guarded guard c.world ∧
    match c.task with
    | .down => True
    | .running prog => prog.Ensures sys guard guard (fun w point => pre point w) c.world

/-- **Every run is guarded.** The code at each point, from its precondition, commits guarded events and
ends at another point whose precondition holds. -/
theorem System.Reach.sound {pre : P → World S E Q A X → Prop}
    (hopening : ∀ w, sys.Guarded guard w → pre sys.opening w.started)
    (hstopping : ∀ w, sys.Guarded guard w → pre sys.stopping w)
    (hcode : ∀ point w, sys.Guarded guard w → pre point w →
      (sys.code point).Ensures sys guard guard (fun w' point' => pre point' w') w)
    {c : Config S E Q A X P} (hreach : sys.Reach c) : sys.Holds guard pre c := by
  induction hreach with
  | refl => exact ⟨.initial, trivial⟩
  | tail _ hstep ih =>
      obtain ⟨hguarded, htask⟩ := ih
      cases hstep with
      | other he => exact ⟨.other hguarded he, htask.rely (.single (.other he))⟩
      | @outside w task x =>
          refine ⟨.outside hguarded x, ?_⟩
          cases task with
          | down => trivial
          | running prog => exact htask.rely (.single (.outside x))
      | quiet hnone => exact ⟨hguarded, (htask _ .refl hguarded).1 hnone⟩
      | own he hadmits =>
          obtain ⟨hallowed, hafter⟩ := (htask _ .refl hguarded).2 _ he
          exact ⟨.own hguarded hallowed hadmits, hafter hadmits⟩
      | answer a => exact ⟨.heard hguarded _ a, htask _ .refl hguarded a⟩
      | goto point => exact ⟨hguarded, hcode point _ hguarded (htask _ .refl hguarded)⟩
      | abort => exact ⟨hguarded, hcode _ _ hguarded (hstopping _ hguarded)⟩
      | crash => exact ⟨hguarded, trivial⟩
      | start => exact ⟨.started hguarded, hcode _ _ (.started hguarded) (hopening _ hguarded)⟩

/-- What a step of a configuration adds to its history. -/
theorem System.Holds.grows {pre : P → World S E Q A X → Prop} {c c' : Config S E Q A X P}
    (h : sys.Holds guard pre c) (hstep : sys.Step c c') :
    Relation.ReflTransGen (sys.Grows guard) c.world c'.world := by
  obtain ⟨hguarded, htask⟩ := h
  cases hstep with
  | other he => exact .single (.other he)
  | outside x => exact .single (.outside x)
  | own he hadmits => exact .single (.own ((htask _ .refl hguarded).2 _ he).1 hadmits)
  | answer a => exact .single (.heard _ a)
  | start => exact .single .started
  | quiet | goto | abort | crash => exact .refl

/-! ## Procedures -/

/-- One step of the program itself that goes on only at points of the procedure. -/
inductive System.Turn (sys : System S E Q A P) (inside : P → Prop) :
    Config S E Q A X P → Config S E Q A X P → Prop where
  | quiet {w : World S E Q A X} {event : S → Option E} {next : S → S → Prog S E Q A P}
      (h : event w.state = none) :
      Turn sys inside ⟨w, .running (.act event next)⟩ ⟨w, .running (next w.state w.state)⟩
  | own {w : World S E Q A X} {event : S → Option E} {next : S → S → Prog S E Q A P} {e : E}
      (h : event w.state = some e) (admitted : sys.admits w.state e) :
      Turn sys inside ⟨w, .running (.act event next)⟩
        ⟨w.own sys e, .running (next w.state (sys.apply w.state e))⟩
  | answer {w : World S E Q A X} {question : Q} {next : A question → Prog S E Q A P}
      (answer : A question) :
      Turn sys inside ⟨w, .running (.ask question next)⟩
        ⟨w.heard question answer, .running (next answer)⟩
  | goto {w : World S E Q A X} {point : P} (h : inside point) :
      Turn sys inside ⟨w, .running (.done point)⟩ ⟨w, .running (sys.code point)⟩

/-- A step of the procedure, after whatever the others did. -/
def System.Move (sys : System S E Q A P) (inside : P → Prop) (c c' : Config S E Q A X P) : Prop :=
  ∃ w, sys.Rely c.world w ∧ sys.Turn inside ⟨w, c.task⟩ c'

variable {inside : P → Prop}

/-- What the procedure's code keeps at its points holds all along the procedure. -/
theorem System.Holds.move {pre : P → World S E Q A X → Prop}
    (hcode : ∀ point w, inside point → sys.Guarded guard w → pre point w →
      (sys.code point).Ensures sys guard guard (fun w' point' => pre point' w') w)
    {c c' : Config S E Q A X P} (h : sys.Holds guard pre c) (hmove : sys.Move inside c c') :
    sys.Holds guard pre c' := by
  obtain ⟨world, task⟩ := c
  obtain ⟨hguarded, htask⟩ := h
  obtain ⟨w, hrely, hturn⟩ := hmove
  have hguarded' := hguarded.rely hrely
  cases hturn with
  | quiet hnone => exact ⟨hguarded', (htask w hrely hguarded').1 hnone⟩
  | own he hadmits =>
      obtain ⟨hallowed, hafter⟩ := (htask w hrely hguarded').2 _ he
      exact ⟨.own hguarded' hallowed hadmits, hafter hadmits⟩
  | answer a => exact ⟨.heard hguarded' _ a, htask w hrely hguarded' a⟩
  | goto hinside => exact ⟨hguarded', hcode _ w hinside hguarded' (htask w hrely hguarded')⟩

theorem System.Holds.moves {pre : P → World S E Q A X → Prop}
    (hcode : ∀ point w, inside point → sys.Guarded guard w → pre point w →
      (sys.code point).Ensures sys guard guard (fun w' point' => pre point' w') w)
    {c c' : Config S E Q A X P} (h : sys.Holds guard pre c)
    (hmoves : Relation.ReflTransGen (sys.Move inside) c c') : sys.Holds guard pre c' := by
  induction hmoves with
  | refl => exact h
  | tail _ hmove ih => exact ih.move hcode hmove

/-- What the others did is added to a history. -/
theorem System.Rely.grows {allowed : World S E Q A X → E → Prop} {w w' : World S E Q A X}
    (h : sys.Rely w w') : Relation.ReflTransGen (sys.Grows allowed) w w' := by
  induction h with
  | refl => exact .refl
  | tail _ hone ih =>
      cases hone with
      | other he => exact ih.tail (.other he)
      | outside x => exact ih.tail (.outside x)

/-- **A step inside a program** adds to the history what the program ensures, and leaves the rest of the
program with what it ensured. -/
theorem Prog.Ensures.move {allowed : World S E Q A X → E → Prop} {post : World S E Q A X → P → Prop}
    (hallowed : ∀ w e, allowed w e → guard w e) {prog : Prog S E Q A P} {w : World S E Q A X}
    (h : prog.Ensures sys guard allowed post w) (hguarded : sys.Guarded guard w)
    {c : Config S E Q A X P} (hmove : sys.Move (fun _ => False) ⟨w, .running prog⟩ c) :
    sys.Guarded guard c.world ∧ Relation.ReflTransGen (sys.Grows allowed) w c.world ∧
      ∃ prog', c.task = .running prog' ∧ prog'.Ensures sys guard allowed post c.world := by
  obtain ⟨w', hrely, hturn⟩ := hmove
  have hguarded' := hguarded.rely hrely
  cases hturn with
  | quiet hnone => exact ⟨hguarded', hrely.grows, _, rfl, (h w' hrely hguarded').1 hnone⟩
  | own he hadmits =>
      obtain ⟨hevent, hafter⟩ := (h w' hrely hguarded').2 _ he
      exact ⟨.own hguarded' (hallowed w' _ hevent) hadmits, hrely.grows.tail (.own hevent hadmits), _,
        rfl, hafter hadmits⟩
  | answer a =>
      exact ⟨.heard hguarded' _ a, hrely.grows.tail (.heard _ a), _, rfl, h w' hrely hguarded' a⟩
  | goto hinside => exact hinside.elim

/-- A step of the procedure is one of the system. -/
theorem System.Turn.step {c c' : Config S E Q A X P} (h : sys.Turn inside c c') : sys.Step c c' := by
  cases h with
  | quiet hnone => exact .quiet hnone
  | own he hadmits => exact .own he hadmits
  | answer a => exact .answer a
  | goto hinside => exact .goto _

theorem System.turns_steps {c c' : Config S E Q A X P}
    (h : Relation.ReflTransGen (sys.Turn inside) c c') : Relation.ReflTransGen sys.Step c c' :=
  Relation.ReflTransGen.mono (fun _ _ hturn => System.Turn.step hturn) _ _ h

/-- The others may have done nothing. -/
theorem System.Turn.move {c c' : Config S E Q A X P} (h : sys.Turn inside c c') :
    sys.Move inside c c' := ⟨c.world, .refl, h⟩

theorem System.turns_moves {c c' : Config S E Q A X P}
    (h : Relation.ReflTransGen (sys.Turn inside) c c') :
    Relation.ReflTransGen (sys.Move inside) c c' :=
  Relation.ReflTransGen.mono (fun _ _ hturn => System.Turn.move hturn) _ _ h

/-- What the others did are steps of the system, beside a program. -/
theorem System.rely_steps {w w' : World S E Q A X} {prog : Prog S E Q A P} (h : sys.Rely w w') :
    Relation.ReflTransGen sys.Step ⟨w, .running prog⟩ ⟨w', .running prog⟩ := by
  induction h with
  | refl => exact .refl
  | tail _ hone ih =>
      cases hone with
      | other he => exact ih.tail (.other he)
      | outside x => exact ih.tail (.outside x)

/-- What the others did and a step of the procedure are steps of the system. -/
theorem System.Move.steps {c c' : Config S E Q A X P} (h : sys.Move inside c c') :
    Relation.ReflTransGen sys.Step c c' := by
  obtain ⟨w, hrely, hturn⟩ := h
  obtain ⟨world, task⟩ := c
  have hrunning : ∃ prog, task = .running prog := by
    cases hturn <;> exact ⟨_, rfl⟩
  obtain ⟨prog, rfl⟩ := hrunning
  exact (System.rely_steps hrely).tail hturn.step

theorem System.moves_steps {c c' : Config S E Q A X P}
    (h : Relation.ReflTransGen (sys.Move inside) c c') : Relation.ReflTransGen sys.Step c c' := by
  induction h with
  | refl => exact .refl
  | tail _ hmove ih => exact ih.trans hmove.steps

/-- **Termination of a procedure.** A program comes to an end; so does the procedure, when the code of
each of its points that the program ends at does. -/
theorem Prog.Ensures.terminates {post : World S E Q A X → P → Prop} {prog : Prog S E Q A P}
    {w : World S E Q A X} (h : prog.Ensures sys guard guard post w) (hguarded : sys.Guarded guard w)
    (hend : ∀ point w', sys.Guarded guard w' → post w' point → inside point →
      Acc (fun c' c => sys.Move inside c c') ⟨w', .running (sys.code point)⟩) :
    Acc (fun c' c => sys.Move inside c c') ⟨w, .running prog⟩ := by
  induction prog generalizing w with
  | done point =>
      refine Acc.intro _ fun c' hmove => ?_
      obtain ⟨w', hrely, hturn⟩ := hmove
      have hguarded' := hguarded.rely hrely
      cases hturn with
      | goto hinside => exact hend point w' hguarded' (h w' hrely hguarded') hinside
  | act event next ih =>
      refine Acc.intro _ fun c' hmove => ?_
      obtain ⟨w', hrely, hturn⟩ := hmove
      have hguarded' := hguarded.rely hrely
      obtain ⟨hquiet, hevent⟩ := h w' hrely hguarded'
      cases hturn with
      | quiet hnone => exact ih _ _ (hquiet hnone) hguarded'
      | own he hadmits =>
          obtain ⟨hallowed, hafter⟩ := hevent _ he
          exact ih _ _ (hafter hadmits) (.own hguarded' hallowed hadmits)
  | ask question next ih =>
      refine Acc.intro _ fun c' hmove => ?_
      obtain ⟨w', hrely, hturn⟩ := hmove
      have hguarded' := hguarded.rely hrely
      cases hturn with
      | answer a => exact ih a (h w' hrely hguarded' a) (.heard hguarded' question a)

/-! ## Programs that are never stuck -/

namespace Prog

variable {α β : Type}

/-- The program is never stuck: what it asks can be answered, and what it commits is admitted in every
state. -/
def Live (sys : System S E Q A P) : Prog S E Q A α → Prop
  | done _ => True
  | act event next => (∀ state e, event state = some e → sys.admits state e) ∧
      ∀ before after, (next before after).Live sys
  | ask question next => Nonempty (A question) ∧ ∀ answer, (next answer).Live sys

theorem live_pure (value : α) : (pure value : Prog S E Q A α).Live sys := trivial

theorem live_read {f : S → α} {rest : α → Prog S E Q A β} (h : ∀ value, (rest value).Live sys) :
    (read f >>= rest).Live sys := by
  refine ⟨?_, fun _ _ => h _⟩
  intro state e he
  cases he

theorem live_commit {e : E} {rest : Unit → Prog S E Q A β} (hadmits : ∀ state, sys.admits state e)
    (h : (rest ()).Live sys) : (commit e >>= rest).Live sys := by
  refine ⟨?_, fun _ _ => h⟩
  intro state e' he
  obtain rfl := Option.some.inj he
  exact hadmits state

theorem live_query {question : Q} {rest : A question → Prog S E Q A β} (answer : A question)
    (h : ∀ answer, (rest answer).Live sys) : (query question >>= rest).Live sys :=
  ⟨⟨answer⟩, h⟩

/-- Sequencing. -/
theorem Live.bind {prog : Prog S E Q A α} {rest : α → Prog S E Q A β} (h : prog.Live sys)
    (hrest : ∀ value, (rest value).Live sys) : (prog >>= rest).Live sys := by
  show (prog.bind rest).Live sys
  induction prog with
  | done value => exact hrest value
  | act event next ih => exact ⟨h.1, fun before after => ih before after (h.2 before after)⟩
  | ask question next ih => exact ⟨h.1, fun answer => ih answer (h.2 answer)⟩

/-- **Progress**: a program that is never stuck has a step, or has come to its end. -/
theorem Live.turn {prog : Prog S E Q A P} (h : prog.Live sys) (w : World S E Q A X) :
    (∃ point, prog = .done point) ∨ ∃ c', sys.Turn inside ⟨w, .running prog⟩ c' := by
  cases prog with
  | done point => exact .inl ⟨point, rfl⟩
  | act event next =>
      cases he : event w.state with
      | none => exact .inr ⟨_, .quiet he⟩
      | some e => exact .inr ⟨_, .own he (h.1 _ e he)⟩
  | ask question next =>
      obtain ⟨⟨answer⟩, -⟩ := h
      exact .inr ⟨_, .answer answer⟩

end Prog

/-- What is left of the running program is never stuck. -/
def System.Lively (sys : System S E Q A P) (c : Config S E Q A X P) : Prop :=
  match c.task with
  | .down => True
  | .running prog => prog.Live sys

/-- A procedure stays so, when the code at each of its points is. -/
theorem System.Lively.moves (hcode : ∀ point, inside point → (sys.code point).Live sys)
    {c c' : Config S E Q A X P} (h : sys.Lively c)
    (hmoves : Relation.ReflTransGen (sys.Move inside) c c') : sys.Lively c' := by
  induction hmoves with
  | refl => exact h
  | @tail b _ _ hmove ih =>
      obtain ⟨w, -, hturn⟩ := hmove
      obtain ⟨world, task⟩ := b
      cases hturn with
      | quiet => exact ih.2 _ _
      | own => exact ih.2 _ _
      | answer a => exact ih.2 a
      | goto hinside => exact hcode _ hinside

/-- **Progress of a procedure**: it has a step, until it has come to a point outside. -/
theorem System.Lively.progress {w : World S E Q A X} {prog : Prog S E Q A P}
    (h : sys.Lively ⟨w, .running prog⟩) :
    (∃ c', sys.Move inside ⟨w, .running prog⟩ c') ∨ ∃ point, prog = .done point ∧ ¬ inside point := by
  have hlive : prog.Live sys := h
  rcases hlive.turn w with ⟨point, rfl⟩ | ⟨c', hturn⟩
  · by_cases hinside : inside point
    · exact .inl ⟨_, System.Turn.move (.goto hinside)⟩
    · exact .inr ⟨point, rfl, hinside⟩
  · exact .inl ⟨c', hturn.move⟩

/-! ## What a program can do -/

namespace Prog

variable {α β : Type}

/-- Left alone from `w` on, the program can end where `post` holds. -/
def CanEnd (sys : System S E Q A P) (post : World S E Q A X → α → Prop) :
    Prog S E Q A α → World S E Q A X → Prop
  | done value, w => post w value
  | act event next, w =>
      match event w.state with
      | none => CanEnd sys post (next w.state w.state) w
      | some e => sys.admits w.state e ∧
          CanEnd sys post (next w.state (sys.apply w.state e)) (w.own sys e)
  | ask question next, w => ∃ answer, CanEnd sys post (next answer) (w.heard question answer)

theorem canEnd_pure {post : World S E Q A X → α → Prop} {value : α} {w : World S E Q A X}
    (h : post w value) : (pure value : Prog S E Q A α).CanEnd sys post w := h

theorem canEnd_read {post : World S E Q A X → β → Prop} {f : S → α} {rest : α → Prog S E Q A β}
    {w : World S E Q A X} (h : (rest (f w.state)).CanEnd sys post w) :
    (read f >>= rest).CanEnd sys post w := h

theorem canEnd_commit {post : World S E Q A X → β → Prop} {e : E} {rest : Unit → Prog S E Q A β}
    {w : World S E Q A X} (hadmits : sys.admits w.state e)
    (h : (rest ()).CanEnd sys post (w.own sys e)) : (commit e >>= rest).CanEnd sys post w :=
  ⟨hadmits, h⟩

theorem canEnd_query {question : Q} {post : World S E Q A X → β → Prop}
    {rest : A question → Prog S E Q A β} {w : World S E Q A X} (answer : A question)
    (h : (rest answer).CanEnd sys post (w.heard question answer)) :
    (query question >>= rest).CanEnd sys post w := ⟨answer, h⟩

/-- Sequencing. -/
theorem CanEnd.bind {middle : World S E Q A X → α → Prop} {post : World S E Q A X → β → Prop}
    {prog : Prog S E Q A α} {rest : α → Prog S E Q A β} {w : World S E Q A X}
    (h : prog.CanEnd sys middle w)
    (hrest : ∀ w' value, middle w' value → (rest value).CanEnd sys post w') :
    (prog >>= rest).CanEnd sys post w := by
  show (prog.bind rest).CanEnd sys post w
  induction prog generalizing w with
  | done value => exact hrest w value h
  | act event next ih =>
      simp only [Prog.bind, CanEnd] at h ⊢
      split at h
      · exact ih _ _ h
      · exact ⟨h.1, ih _ _ h.2⟩
  | ask question next ih =>
      obtain ⟨answer, h⟩ := h
      exact ⟨answer, ih answer h⟩

/-- What a program can do a procedure can do, and so a run. -/
theorem CanEnd.turns {post : World S E Q A X → P → Prop} {prog : Prog S E Q A P}
    {w : World S E Q A X} (h : prog.CanEnd sys post w) :
    ∃ w' point, post w' point ∧
      Relation.ReflTransGen (sys.Turn inside) ⟨w, .running prog⟩ ⟨w', .running (.done point)⟩ := by
  induction prog generalizing w with
  | done point => exact ⟨w, point, h, .refl⟩
  | act event next ih =>
      cases he : event w.state with
      | none =>
          simp only [CanEnd, he] at h
          obtain ⟨w', point, hpost, hturns⟩ := ih _ _ h
          exact ⟨w', point, hpost, .head (.quiet he) hturns⟩
      | some e =>
          simp only [CanEnd, he] at h
          obtain ⟨w', point, hpost, hturns⟩ := ih _ _ h.2
          exact ⟨w', point, hpost, .head (.own he h.1) hturns⟩
  | ask question next ih =>
      obtain ⟨answer, h⟩ := h
      obtain ⟨w', point, hpost, hturns⟩ := ih answer h
      exact ⟨w', point, hpost, .head (.answer answer) hturns⟩

theorem CanEnd.steps {post : World S E Q A X → P → Prop} {prog : Prog S E Q A P}
    {w : World S E Q A X} (h : prog.CanEnd sys post w) :
    ∃ w' point, post w' point ∧
      Relation.ReflTransGen sys.Step ⟨w, .running prog⟩ ⟨w', .running (.done point)⟩ := by
  obtain ⟨w', point, hpost, hturns⟩ := @CanEnd.turns _ _ _ _ _ _ _ (fun _ => True) _ _ _ h
  exact ⟨w', point, hpost, System.turns_steps hturns⟩

end Prog

/-- A procedure goes on at the next point. -/
theorem System.goes_inside {post : World S E Q A X → P → Prop} {w : World S E Q A X} {point : P}
    (hinside : inside point) (h : (sys.code point).CanEnd sys post w) :
    ∃ w' point', post w' point' ∧ Relation.ReflTransGen (sys.Turn inside)
      ⟨w, .running (.done point)⟩ ⟨w', .running (.done point')⟩ := by
  obtain ⟨w', point', hpost, hturns⟩ := h.turns
  exact ⟨w', point', hpost, .head (.goto hinside) hturns⟩

/-- A running configuration goes on at the next point. -/
theorem System.goes {post : World S E Q A X → P → Prop} {w : World S E Q A X} {point : P}
    (h : (sys.code point).CanEnd sys post w) :
    ∃ w' point', post w' point' ∧
      Relation.ReflTransGen sys.Step ⟨w, .running (.done point)⟩ ⟨w', .running (.done point')⟩ := by
  obtain ⟨w', point', hpost, hsteps⟩ := h.steps
  exact ⟨w', point', hpost, .head (.goto point) hsteps⟩

/-- Where the code of a point can lead, a run can go. -/
theorem System.goes_to {w w' : World S E Q A X} {point point' : P}
    (h : (sys.code point).CanEnd sys (fun v q => v = w' ∧ q = point') w) :
    Relation.ReflTransGen sys.Step ⟨w, .running (.done point)⟩ ⟨w', .running (.done point')⟩ := by
  obtain ⟨v, q, ⟨rfl, rfl⟩, hsteps⟩ := System.goes h
  exact hsteps

end UnicityBridge.Lib
