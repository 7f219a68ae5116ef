import SemCheck.Proofs.Guard.Scopes
import SemCheck.Proofs.Occurrence.Arguments

/-!
# Scans of type arguments

A scan goes through a type with a guard and adds declarations to what it has found. `Lists` says of a scan what it
lists, and what room it needs from its guard to list all of that: how deep it goes and how often it tries to enter. A
guard refuses a type only if it is being scanned already, and what is being scanned is nested deeper than what is still
to come (`Room`), so that nothing is refused (`Lists.visiting`).

Main statement: a scan that goes through the arguments of applications and the members of unions and intersections lists
what is reported for the arguments in a type (`Scans.lists`).
-/

namespace SemCheck

/-- Part of a scan: what has been found so far and the guard, before and after. -/
abbrev Scan := List DeclId → Guard Ty → List DeclId × Guard Ty

namespace Scan

def skip : Scan := fun found g => (found, g)

/-- Adds a declaration to what is found. -/
def note (d : DeclId) : Scan := fun found g => (if d ∈ found then found else found ++ [d], g)

def andThen (p q : Scan) : Scan := fun found g => q (p found g).1 (p found g).2

def all : List Scan → Scan
  | [] => skip
  | p :: ps => p.andThen (all ps)

/-- A scan while the guard is visiting a type, or none at all if it refuses the type. -/
def visiting (key : Ty) (p : Scan) : Scan := fun found g =>
  match g.scope key (p found) with
  | (.ok found, g) => (found, g)
  | (.error _, g) => (found, g)

/-- The guard in a scan that may be refused, and after it. -/
theorem visiting_cases (key : Ty) (p : Scan) (found : List DeclId) (g : Guard Ty) :
    (∃ g₁, g.enter key = (.entered, g₁) ∧ visiting key p found g = ((p found g₁).1, (p found g₁).2.leave key)) ∨
      (g.enter key).1 ≠ .entered ∧ visiting key p found g = (found, (g.enter key).2) := by
  unfold visiting
  rcases Guard.scope_cases g key (p found) with ⟨g₁, henter, hscope⟩ | ⟨hne, hscope⟩
  · rw [hscope]
    exact Or.inl ⟨g₁, henter, rfl⟩
  · rw [hscope]
    exact Or.inr ⟨hne, rfl⟩

end Scan

/-- A guard is visiting only types that are nested deeper than `nesting`, and allows to go that deep and to try as often
as `applications`. -/
structure Room (g : Guard Ty) (nesting applications : Nat) : Prop where
  visiting : ∀ u ∈ g.visiting.toList, nesting < u.nesting
  depth : g.depth + nesting ≤ g.maxDepth
  size : g.visiting.toList.length + nesting ≤ Limits.visitingSize
  iterations : g.iterations + applications ≤ g.maxIterations

theorem Limits.typeArgumentDepth_le : typeArgumentDepth ≤ visitingSize := by
  unfold typeArgumentDepth visitingSize
  omega

namespace Room

variable {g g' : Guard Ty} {n n' c c' : Nat}

theorem mono (h : Room g n' c') (hn : n ≤ n') (hc : c ≤ c') : Room g n c where
  visiting u hu := Nat.lt_of_le_of_lt hn (h.visiting u hu)
  depth := Nat.le_trans (Nat.add_le_add_left hn _) h.depth
  size := Nat.le_trans (Nat.add_le_add_left hn _) h.size
  iterations := Nat.le_trans (Nat.add_le_add_left hc _) h.iterations

/-- What is left of the room after a walk. -/
theorem of_kept (h : Room g n (c + c')) (hkept : Guard.Kept g g') (hcost : g'.iterations ≤ g.iterations + c) :
    Room g' n c' where
  visiting := hkept.visiting ▸ h.visiting
  depth := by rw [hkept.depth, hkept.maxDepth]; exact h.depth
  size := by rw [hkept.visiting]; exact h.size
  iterations := by
    have := h.iterations
    rw [hkept.maxIterations]
    omega

/-- A guard with room for a type that is nested as deep as it has room for enters it. -/
theorem enter (h : Room g (n + 1) (c + 1)) {key : Ty} (hkey : key.nesting = n + 1) :
    ∃ g₁, g.enter key = (.entered, g₁) ∧ Room g₁ n c := by
  rcases henter : g.enter key with ⟨entry, g₁⟩
  have hiterations := h.iterations
  have hdepth := h.depth
  have hsize := h.size
  obtain rfl : entry = .entered := by
    have hanswer := Guard.entered_or_cycle (g := g) key (by omega) (by omega) (by omega)
    rw [henter] at hanswer
    refine hanswer.resolve_right ?_
    -- A type being visited is nested deeper.
    rintro rfl
    have := h.visiting key (Guard.mem_of_enter_cycle henter)
    omega
  obtain ⟨hvisiting, hdepth₁⟩ := Guard.enter_entered henter
  obtain ⟨hmaxDepth, hmaxIterations⟩ := Guard.limits_enter g key
  have hcount := Guard.iterations_enter_le g key
  rw [henter] at hmaxDepth hmaxIterations hcount
  dsimp only at hmaxDepth hmaxIterations hcount
  refine ⟨g₁, rfl, ?_, ?_, ?_, ?_⟩
  · rw [hvisiting]
    rintro u (_ | ⟨_, hu⟩)
    · omega
    · have := h.visiting u hu
      omega
  · rw [hdepth₁, hmaxDepth]
    omega
  · rw [hvisiting, List.length_cons]
    omega
  · rw [hmaxIterations]
    omega

/-- The guard with which a scan begins. -/
theorem start (hn : n ≤ Limits.typeArgumentDepth) (hc : c ≤ Limits.walkIterations) :
    Room (.ofProfile .typeArgumentScan) n c where
  visiting := nofun
  depth := by simpa [Guard.ofProfile, Profile.typeArgumentScan] using hn
  size := by simpa [Guard.ofProfile] using Nat.le_trans hn Limits.typeArgumentDepth_le
  iterations := by simpa [Guard.ofProfile, Profile.typeArgumentScan] using hc

end Room

/-- A scan adds, each once, the declarations of which `D` holds, if its guard has room for it. -/
structure Lists (D : DeclId → Prop) (nesting applications : Nat) (p : Scan) : Prop where
  nested : ∀ found g, Guard.Scoped g (p found g).2
  cost : ∀ found g, (p found g).2.iterations ≤ g.iterations + applications
  nodup : ∀ found g, found.Nodup → (p found g).1.Nodup
  mem : ∀ found g, Room g nesting applications → ∀ d, d ∈ (p found g).1 ↔ d ∈ found ∨ D d

namespace Lists

variable {D E : DeclId → Prop} {n n' c c' : Nat} {p q : Scan}

theorem weaken (h : Lists D n c p) (hD : ∀ d, D d ↔ E d) (hn : n ≤ n') (hc : c ≤ c') : Lists E n' c' p where
  nested := h.nested
  cost found g := Nat.le_trans (h.cost found g) (Nat.add_le_add_left hc _)
  nodup := h.nodup
  mem found g hroom d := by rw [h.mem found g (hroom.mono hn hc), hD]

theorem congr (h : Lists D n c p) (hD : ∀ d, D d ↔ E d) : Lists E n c p :=
  h.weaken hD (Nat.le_refl n) (Nat.le_refl c)

theorem skip : Lists (fun _ => False) 0 0 .skip where
  nested _ g := .refl g
  cost _ _ := Nat.le_refl _
  nodup _ _ := id
  mem found _ _ d := (or_false (d ∈ found)).symm.to_iff

theorem of_none (h : ∀ d, ¬ D d) : Lists D n c .skip :=
  skip.weaken (fun d => (iff_false_intro (h d)).symm) (Nat.zero_le n) (Nat.zero_le c)

theorem note (d : DeclId) : Lists (d = ·) 0 0 (.note d) where
  nested _ g := .refl g
  cost _ _ := Nat.le_refl _
  nodup found _ h := by
    show (if d ∈ found then found else found ++ [d]).Nodup
    split
    · exact h
    · next hd => exact List.nodup_append.2 ⟨h, List.pairwise_singleton _ d, by grind⟩
  mem found _ _ e := by
    show e ∈ (if d ∈ found then found else found ++ [d]) ↔ _
    split
    · next hd => exact ⟨Or.inl, fun h => h.elim id (· ▸ hd)⟩
    · rw [List.mem_append, List.mem_singleton, eq_comm]

theorem andThen (hp : Lists D n c p) (hq : Lists E n' c' q) :
    Lists (fun d => D d ∨ E d) (max n n') (c + c') (p.andThen q) where
  nested found g := (hp.nested found g).trans (hq.nested _ _)
  cost found g := by
    have hfirst := hp.cost found g
    have hsecond := hq.cost (p found g).1 (p found g).2
    show (q _ _).2.iterations ≤ _
    omega
  nodup found g h := hq.nodup _ _ (hp.nodup found g h)
  mem found g hroom d := by
    have hfirst := hroom.mono (Nat.le_max_left n n') (Nat.le_add_right c c')
    have hsecond := (hroom.of_kept (hp.nested found g).kept (hp.cost found g)).mono (Nat.le_max_right n n')
      (Nat.le_refl c')
    show d ∈ (q _ _).1 ↔ _
    rw [hq.mem _ _ hsecond, hp.mem _ _ hfirst, or_assoc]

/-- One scan for each of some values with a type. -/
theorem all {α : Type} {xs : List α} {type : α → Ty} {D : α → DeclId → Prop} {p : α → Scan}
    (h : ∀ x ∈ xs, Lists (D x) (type x).nesting (type x).applications (p x)) :
    Lists (fun d => ∃ x ∈ xs, D x d) (Ty.nestingOf (xs.map type)) (Ty.applicationsOf (xs.map type))
      (.all (xs.map p)) := by
  induction xs with
  | nil => exact skip.congr fun d => by simp
  | cons x xs ih =>
    obtain ⟨hx, hxs⟩ := List.forall_mem_cons.1 h
    exact (hx.andThen (ih hxs)).congr fun d => by simp

/-- The type that is visited during the scan is nested deeper than what the scan goes through. -/
theorem visiting {key : Ty} (hp : Lists D n c p) (hkey : key.nesting = n + 1) :
    Lists D (n + 1) (c + 1) (.visiting key p) where
  nested found g := by
    have hscoped := Guard.Scoped.scope (fun g => hp.nested found g) g key
    unfold Scan.visiting
    split <;> simp_all
  cost found g := by
    have hcount := Guard.iterations_enter_le g key
    rcases Scan.visiting_cases key p found g with ⟨g₁, henter, hscope⟩ | ⟨-, hscope⟩
    · have hcost := hp.cost found g₁
      have hleave := (Guard.counts_leave (p found g₁).2 key).1
      rw [henter] at hcount
      rw [hscope]
      dsimp only at hcount ⊢
      omega
    · rw [hscope]
      dsimp only
      omega
  nodup found g h := by
    rcases Scan.visiting_cases key p found g with ⟨g₁, -, hscope⟩ | ⟨-, hscope⟩
    · rw [hscope]
      exact hp.nodup found g₁ h
    · rw [hscope]
      exact h
  mem found g hroom d := by
    obtain ⟨g₁, henter, hroom₁⟩ := hroom.enter hkey
    rcases Scan.visiting_cases key p found g with ⟨g₂, henter', hscope⟩ | ⟨hne, -⟩
    · obtain rfl : g₁ = g₂ := congrArg Prod.snd (henter.symm.trans henter')
      rw [hscope]
      exact hp.mem found g₁ hroom₁ d
    · exact absurd (congrArg Prod.fst henter) hne

end Lists

/-! ## Scans of types -/

/-- How `scan` goes through a type at a position of some polarity: every argument that an application gives for a
parameter is visited, while the guard is visiting the application. -/
structure Scans (m : Model) (scan : Variance → Ty → Scan) (visit : Argument → Scan) : Prop where
  nothing : ∀ polarity, scan polarity .nothing = .skip
  unknown : ∀ polarity n, scan polarity (.unknown n) = .skip
  param : ∀ polarity p, scan polarity (.param p) = .skip
  union : ∀ polarity ms, scan polarity (.union ms) = .all (ms.map (scan polarity))
  intersection : ∀ polarity ms, scan polarity (.intersection ms) = .all (ms.map (scan polarity))
  applied_of_unknown : ∀ polarity d args, m.get? d = none → scan polarity (.applied d args) = .skip
  applied : ∀ polarity d args, m.get? d ≠ none →
    scan polarity (.applied d args) = .visiting (.applied d args) (.all ((m.argumentsOf polarity d args).map visit))

section

variable {m : Model} {scan : Variance → Ty → Scan} {visit : Argument → Scan} {enters : Argument → Prop}
  {report : Argument → DeclId → Prop}

theorem Lists.members {polarity : Variance} {ms : List Ty}
    (h : ∀ t ∈ ms, Lists (m.Reports enters report polarity t) t.nesting t.applications (scan polarity t)) :
    Lists (fun d => ∃ t ∈ ms, m.Reports enters report polarity t d) (Ty.nestingOf ms) (Ty.applicationsOf ms)
      (.all (ms.map (scan polarity))) := by
  simpa using Lists.all h

/-- **A scan lists what is reported** for the arguments in a type, if it does so at every argument: there it notes what
is reported for the argument and goes through it if it is entered. -/
theorem Scans.lists (hscan : Scans m scan visit)
    (hvisit : ∀ a n c, Lists (m.Reports enters report (m.polarityOf a) a.type) n c (scan (m.polarityOf a) a.type) →
      Lists (fun d => report a d ∨ enters a ∧ m.Reports enters report (m.polarityOf a) a.type d) n c (visit a))
    (polarity : Variance) (t : Ty) :
    Lists (m.Reports enters report polarity t) t.nesting t.applications (scan polarity t) := by
  induction t generalizing polarity with
  | nothing =>
    rw [hscan.nothing]
    exact .of_none fun _ => Model.not_reports_of_parts nofun rfl
  | unknown n =>
    rw [hscan.unknown]
    exact .of_none fun _ => Model.not_reports_of_parts nofun rfl
  | param p =>
    rw [hscan.param]
    exact .of_none fun _ => Model.not_reports_of_parts nofun rfl
  | union ms ih =>
    rw [hscan.union]
    exact (Lists.members fun t ht => ih t ht polarity).congr fun d => Model.reports_union_iff.symm
  | intersection ms ih =>
    rw [hscan.intersection]
    exact (Lists.members fun t ht => ih t ht polarity).congr fun d => Model.reports_intersection_iff.symm
  | applied d args ih =>
    by_cases hd : m.get? d = none
    · rw [hscan.applied_of_unknown _ _ _ hd]
      refine .of_none fun e he => ?_
      obtain ⟨a, ha, -⟩ := Model.reports_applied_iff.1 he
      rw [m.argumentsOf_of_unknown hd] at ha
      exact List.not_mem_nil ha
    · rw [hscan.applied _ _ _ hd]
      have hgiven := m.map_type_argumentsOf polarity d args
      have hargs : Lists (fun e => ∃ a ∈ m.argumentsOf polarity d args,
          report a e ∨ enters a ∧ m.Reports enters report (m.polarityOf a) a.type e)
          (Ty.nestingOf args) (Ty.applicationsOf args) (.all ((m.argumentsOf polarity d args).map visit)) := by
        refine (Lists.all fun a ha => hvisit a _ _ (ih a.type ?_ _)).weaken (fun _ => Iff.rfl) ?_ ?_
        · exact List.mem_of_mem_take (hgiven ▸ List.mem_map_of_mem ha)
        · exact hgiven ▸ Ty.nestingOf_take_le _ args
        · exact hgiven ▸ Ty.applicationsOf_take_le _ args
      exact (hargs.visiting rfl).congr fun e => Model.reports_applied_iff.symm

end

end SemCheck
