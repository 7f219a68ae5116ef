import SemCheck.Occurrence.Variance

/-!
# Arguments in a type

An argument stands in a type where one of the applications in the type is given it for a parameter, perhaps inside
other arguments (`Model.HasArgument`). Polarities compose on the way there. What is said of a type by its arguments is
said of an application by the arguments that it is given (`Model.reports_applied_iff`), and of a union or intersection
by its members.
-/

namespace SemCheck

/-- What an application gives for a parameter. -/
structure Argument where
  /-- The polarity of the position in which the application stands. -/
  polarity : Variance
  /-- The declaration that is applied. -/
  decl : DeclId
  param : DeclId
  type : Ty

namespace Model

variable (m : Model)

/-- The polarity of the position in which an argument stands. -/
def polarityOf (a : Argument) : Variance := a.polarity.compose (m.varianceOf a.param)

/-- What an application of `d` at a position of polarity `polarity` gives for the parameters of `d`, of which an unknown
declaration has none. -/
def argumentsOf (polarity : Variance) (d : DeclId) (args : List Ty) : List Argument :=
  ((m.typeParametersOf d).zip args).map fun (p, t) => ⟨polarity, d, p, t⟩

theorem argumentsOf_of_unknown {d : DeclId} (hd : m.get? d = none) (polarity : Variance) (args : List Ty) :
    m.argumentsOf polarity d args = [] := by
  rw [argumentsOf, typeParametersOf, hd]
  rfl

/-- An argument stands in a type at a position of some polarity, inside the arguments `way`, the outermost first. -/
inductive HasArgument : Variance → Ty → (way : List Argument) → Argument → Prop
  | here {polarity : Variance} {d : DeclId} {args : List Ty} {a : Argument} (ha : a ∈ m.argumentsOf polarity d args) :
      HasArgument polarity (.applied d args) [] a
  | inside {polarity : Variance} {d : DeclId} {args : List Ty} {b : Argument} {way : List Argument} {a : Argument}
      (hb : b ∈ m.argumentsOf polarity d args) (h : HasArgument (m.polarityOf b) b.type way a) :
      HasArgument polarity (.applied d args) (b :: way) a
  | union {polarity : Variance} {ms : List Ty} {t : Ty} {way : List Argument} {a : Argument} (ht : t ∈ ms)
      (h : HasArgument polarity t way a) : HasArgument polarity (.union ms) way a
  | intersection {polarity : Variance} {ms : List Ty} {t : Ty} {way : List Argument} {a : Argument} (ht : t ∈ ms)
      (h : HasArgument polarity t way a) : HasArgument polarity (.intersection ms) way a

/-- `d` is reported for an argument in a type that stands inside arguments that are entered only. -/
def Reports (enters : Argument → Prop) (report : Argument → DeclId → Prop) (polarity : Variance) (t : Ty)
    (d : DeclId) : Prop :=
  ∃ way a, m.HasArgument polarity t way a ∧ (∀ b ∈ way, enters b) ∧ report a d

section

variable {m} {enters : Argument → Prop} {report : Argument → DeclId → Prop} {polarity : Variance} {d : DeclId}
  {ms : List Ty}

theorem reports_applied_iff {e : DeclId} {args : List Ty} :
    m.Reports enters report polarity (.applied e args) d ↔
      ∃ a ∈ m.argumentsOf polarity e args,
        report a d ∨ enters a ∧ m.Reports enters report (m.polarityOf a) a.type d := by
  constructor
  · rintro ⟨way, a, h, hway, hreport⟩
    cases h with
    | here ha => exact ⟨a, ha, Or.inl hreport⟩
    | inside hb h =>
      obtain ⟨hfirst, hrest⟩ := List.forall_mem_cons.1 hway
      exact ⟨_, hb, Or.inr ⟨hfirst, _, a, h, hrest, hreport⟩⟩
  · rintro ⟨b, hb, hreport | ⟨henters, way, a, h, hway, hreport⟩⟩
    · exact ⟨[], b, .here hb, List.forall_mem_nil _, hreport⟩
    · exact ⟨b :: way, a, .inside hb h, List.forall_mem_cons.2 ⟨henters, hway⟩, hreport⟩

theorem reports_union_iff :
    m.Reports enters report polarity (.union ms) d ↔ ∃ t ∈ ms, m.Reports enters report polarity t d := by
  constructor
  · rintro ⟨way, a, h, hrest⟩
    cases h with
    | union ht h => exact ⟨_, ht, way, a, h, hrest⟩
  · rintro ⟨t, ht, way, a, h, hrest⟩
    exact ⟨way, a, .union ht h, hrest⟩

theorem reports_intersection_iff :
    m.Reports enters report polarity (.intersection ms) d ↔ ∃ t ∈ ms, m.Reports enters report polarity t d := by
  constructor
  · rintro ⟨way, a, h, hrest⟩
    cases h with
    | intersection ht h => exact ⟨_, ht, way, a, h, hrest⟩
  · rintro ⟨t, ht, way, a, h, hrest⟩
    exact ⟨way, a, .intersection ht h, hrest⟩

/-- No argument stands in a type that is neither an application nor made of members. -/
theorem not_reports_of_parts {t : Ty} (happlied : ∀ e args, t ≠ .applied e args) (hparts : t.parts = []) :
    ¬ m.Reports enters report polarity t d := by
  rintro ⟨way, a, h, -⟩
  cases h with
  | here | inside => exact absurd rfl (happlied _ _)
  | union ht | intersection ht =>
    rw [Ty.parts] at hparts
    exact absurd ht (hparts ▸ List.not_mem_nil)

/-- What is reported anywhere is reported for an argument inside of which all others are entered: the outermost one. -/
theorem exists_reports_of_hasArgument {t : Ty} {way : List Argument} {a : Argument} {P : Argument → Prop}
    (h : m.HasArgument polarity t way a) (ha : P a) :
    ∃ way' b, m.HasArgument polarity t way' b ∧ (∀ c ∈ way', ¬ P c) ∧ P b := by
  induction h with
  | here hmem => exact ⟨[], _, .here hmem, List.forall_mem_nil _, ha⟩
  | @inside polarity d args b way a hb _ ih =>
    by_cases hP : P b
    · exact ⟨[], b, .here hb, List.forall_mem_nil _, hP⟩
    · obtain ⟨way', c, hc, hway, hPc⟩ := ih ha
      exact ⟨b :: way', c, .inside hb hc, List.forall_mem_cons.2 ⟨hP, hway⟩, hPc⟩
  | union ht _ ih =>
    obtain ⟨way', c, hc, hrest⟩ := ih ha
    exact ⟨way', c, .union ht hc, hrest⟩
  | intersection ht _ ih =>
    obtain ⟨way', c, hc, hrest⟩ := ih ha
    exact ⟨way', c, .intersection ht hc, hrest⟩

end

end Model

/-! ## How much there is of a type -/

namespace Ty

mutual

/-- How many applications stand in one another. -/
def nesting : Ty → Nat
  | .applied _ args => nestingOf args + 1
  | .union members | .intersection members => nestingOf members
  | .nothing | .unknown _ | .param _ => 0

def nestingOf : List Ty → Nat
  | [] => 0
  | t :: ts => max (nesting t) (nestingOf ts)

end

mutual

/-- How many applications stand in a type, each as often as it stands there. -/
def applications : Ty → Nat
  | .applied _ args => applicationsOf args + 1
  | .union members | .intersection members => applicationsOf members
  | .nothing | .unknown _ | .param _ => 0

def applicationsOf : List Ty → Nat
  | [] => 0
  | t :: ts => applications t + applicationsOf ts

end

theorem nestingOf_take_le (n : Nat) (ts : List Ty) : nestingOf (ts.take n) ≤ nestingOf ts := by
  induction ts generalizing n with
  | nil => simp
  | cons t ts ih =>
    cases n with
    | zero => exact Nat.zero_le _
    | succ n =>
      have := ih n
      simp only [List.take_succ_cons, nestingOf]
      omega

theorem applicationsOf_take_le (n : Nat) (ts : List Ty) : applicationsOf (ts.take n) ≤ applicationsOf ts := by
  induction ts generalizing n with
  | nil => simp
  | cons t ts ih =>
    cases n with
    | zero => exact Nat.zero_le _
    | succ n =>
      have := ih n
      simp only [List.take_succ_cons, applicationsOf]
      omega

end Ty

/-- Arguments beyond the parameters of a declaration are not given for any. -/
theorem Model.map_type_argumentsOf (m : Model) (polarity : Variance) (d : DeclId) (args : List Ty) :
    (m.argumentsOf polarity d args).map Argument.type = args.take (m.typeParametersOf d).length := by
  rw [argumentsOf]
  generalize m.typeParametersOf d = ps
  induction ps generalizing args with
  | nil => rfl
  | cons p ps ih =>
    cases args with
    | nil => rfl
    | cons t ts => exact congrArg (t :: ·) (ih ts)

end SemCheck
