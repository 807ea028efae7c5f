import GrantPath.Proofs.LiveDecisions
import GrantPath.Proofs.Lockstep
import GrantPath.Proofs.Transparency

/-! # Queries with targets

A query with a target makes no lookup without one, and neither do its generalizations, which have
targets of their own. So it does not matter to it how such lookups are answered
(`Policy.hasPermission_congr`), and a session whose queries have targets goes on in the same way
with a service that answers only those differently (`Session.steps_congr`).

Where only such queries are put, any service may therefore be taken for one in which a lookup
without a target is one with the empty target key (`Service.keyed`). -/

namespace GrantPath

variable {σ : Type}

/-! ### Services that differ only in lookups without a target -/

/-- Whether the request is for anything but records without a target. -/
def Request.isTargeted : Request → Bool
  | .permissions _ _ _ none => false
  | _ => true

/-- The services answer alike, but for lookups without a target. -/
def Service.Agrees (svc svc' : Service σ) : Prop :=
  ∀ q, q.isTargeted = true → svc'.reply q = svc.reply q

/-- The service in which a lookup without a target is one with the empty target key. -/
def Service.keyed (svc : Service σ) : Service σ where
  reply
    | .permissions p owner activity none => svc.reply (.permissions p owner activity (some ""))
    | q => svc.reply q

/-- The answers in which a lookup without a target is one with the empty target key. -/
def Answers.keyed (a : Answers) : Answers
  | .permissions p owner activity none => a (.permissions p owner activity (some ""))
  | q => a q

theorem Answers.keyed_keyed (a : Answers) : a.keyed.Keyed := by
  intro p owner activity target
  cases target <;> rfl

/-- Each of the new answers is one of the old. -/
theorem Answers.InForceAlike.keyed {a : Answers} {t t' : Instant} (h : a.InForceAlike t t') :
    a.keyed.InForceAlike t t' := by
  intro p owner activity target records hr
  cases target with
  | none => exact h p owner activity (some "") records hr
  | some key => exact h p owner activity (some key) records hr

theorem Service.agrees_keyed (svc : Service σ) : svc.Agrees svc.keyed := by
  intro q hq
  cases q with
  | permissions p owner activity target =>
      cases target with
      | none => cases hq
      | some key => rfl
  | _ => rfl

theorem Service.Settled.keyed {svc : Service σ} {st : σ} {a : Answers} (h : svc.Settled st a) :
    svc.keyed.Settled st a.keyed := by
  intro q
  cases q with
  | permissions p owner activity target => cases target <;> exact h _
  | _ => exact h _

theorem Service.Still.keyed {svc : Service σ} {st : σ} {a : Answers} (h : svc.Still st a) :
    svc.keyed.Still st a.keyed := by
  refine ⟨h.1.keyed, ?_⟩
  intro q
  cases q with
  | permissions p owner activity target => cases target <;> exact h.2 _
  | _ => exact h.2 _

theorem Run.ask_congr {svc svc' : Service σ} (h : svc.Agrees svc') {q : Request}
    (hq : q.isTargeted = true) : ask svc' q = ask svc q := by
  funext r
  unfold ask
  rw [h q hq]

/-! ### Searches -/

namespace Search

variable {s : Search σ} {svc : Service σ} (h : s.service.Agrees svc)
  (ht : s.scope.target.isSome = true)

include h ht

theorem lookUp_congr (p : Principal) :
    { s with service := svc }.lookUp p = s.lookUp p := by
  obtain ⟨target, htarget⟩ := Option.isSome_iff_exists.mp ht
  have hask := Run.ask_congr h
    (q := .permissions p s.scope.owner s.scope.activity s.scope.target) (by rw [htarget]; rfl)
  funext r
  exact congrFun hask (r.count .nodeEvaluated)

theorem lockstep_congr : Lockstep Eq s { s with service := svc } where
  limit := rfl
  key _ := rfl
  wall hr := by rw [hr]
  seen hr := by rw [hr]
  count hr _ := by rw [hr]
  see hr _ := by rw [hr]
  beginSearch hr _ _ := by rw [hr]
  readCache _ := Run.inStep_eq_iff.mpr rfl
  writeCache hr _ _ := by rw [hr]
  lookUp p := Run.inStep_eq_iff.mpr (lookUp_congr h ht p)
  groupMember _ := Run.inStep_eq_iff.mpr (Run.ask_congr h rfl)
  parentGroups _ := Run.inStep_eq_iff.mpr (Run.ask_congr h rfl)
  newPrincipal _ := Run.inStep_eq_iff.mpr (Run.ask_congr h rfl)

end Search

/-! ### Queries -/

namespace Policy

variable {policy : Policy} {svc svc' : Service σ} {q q' : Query}

theorem resolveNames_isSome {owner activity key : String} {o : Owner} {act : Activity}
    {target : Option Target} {r r' : Run σ}
    (h : resolveNames svc owner activity (some key) r = (.ok (o, act, target), r')) :
    target.isSome = true := by
  unfold resolveNames resolveTargetName at h
  rcases h₁ : r.ask svc (.resolveOwner owner) with ⟨_ | _ | o', r₁⟩
  · simp [h₁] at h
  · simp [h₁] at h
  rcases h₂ : r₁.ask svc (.resolveActivity owner activity) with ⟨_ | _ | act', r₂⟩
  · simp [h₁, h₂] at h
  · simp [h₁, h₂] at h
  rcases h₃ : r₂.ask svc (.resolveTarget act'.targetProvider key) with ⟨_ | target', r₃⟩
  · simp [h₁, h₂, h₃] at h
  · simp only [h₁, h₂, h₃, Prod.mk.injEq, Except.ok.injEq] at h
    obtain ⟨⟨-, -, rfl⟩, -⟩ := h
    rfl

section agrees

variable (h : svc.Agrees svc')

include h

theorem lockstep_congr : policy.Lockstep Eq svc svc' (fun q => q.target.isSome = true) where
  elapsed hr := by rw [hr]
  count hr _ := by rw [hr]
  setAside hr := by rw [hr]
  ask q hq := by
    apply Run.inStep_eq_iff.mpr
    apply Run.ask_congr h
    cases q <;> first | rfl | cases hq
  search {q} hq := by
    have ht : q.scope.target.isSome = true := by simpa [Query.scope, Scope.of] using hq
    exact Search.lockstep_congr (s := policy.search svc q) h ht
  targeted hq := hq

theorem hasPermission_congr (hq : q.target.isSome = true) (r : Run σ) :
    policy.hasPermission svc' q r = policy.hasPermission svc q r :=
  congrFun (Run.inStep_eq_iff.mp ((lockstep_congr h).hasPermission hq)) r

theorem check_congr {q : PartialQuery} (hq : q.target.isSome = true) (r : Run σ) :
    policy.check svc' q r = policy.check svc q r := by
  unfold check
  cases hcomplete : q.complete? with
  | none => rfl
  | some complete =>
      apply hasPermission_congr h
      rwa [← (PartialQuery.parts_of_complete? hcomplete).2]

theorem evaluateBatch_congr (principal : Principal) (owner : Owner) (activity : Activity) :
    ∀ (targets : List Target) (r : Run σ),
      policy.evaluateBatch svc' principal owner activity targets r =
        policy.evaluateBatch svc principal owner activity targets r
  | [], _ => rfl
  | _ :: targets, r => by
      simp only [evaluateBatch, evaluateBatch_congr principal owner activity targets,
        hasPermission_congr h (q := ⟨_, _, _, some _⟩) rfl]

theorem resolveNames_congr (owner activity : String) (target : Option String) (r : Run σ) :
    resolveNames svc' owner activity target r = resolveNames svc owner activity target r := by
  cases target <;>
    simp only [resolveNames, resolveTargetName, Run.ask_congr h (q := .resolveOwner _) rfl,
      Run.ask_congr h (q := .resolveActivity ..) rfl, Run.ask_congr h (q := .resolveTarget ..) rfl]

theorem checkByName_congr (principal : Principal) (owner activity : String)
    {target : Option String} (ht : target.isSome = true) (r : Run σ) :
    policy.checkByName svc' principal owner activity target r =
      policy.checkByName svc principal owner activity target r := by
  obtain ⟨key, rfl⟩ := Option.isSome_iff_exists.mp ht
  unfold checkByName
  rw [resolveNames_congr h]
  rcases hout : resolveNames svc owner activity (some key) r with ⟨_ | ⟨o, act, t⟩, r'⟩
  · rfl
  · exact hasPermission_congr h (resolveNames_isSome hout) r'

end agrees

end Policy

/-! ### Sessions -/

/-- Whether the queries that the step puts have targets. -/
def Step.isTargeted : Step σ → Bool
  | .check q => q.target.isSome
  | .checkByName _ _ _ target => target.isSome
  | _ => true

namespace Session

variable {s : Session σ} {svc : Service σ} (h : s.service.Agrees svc)

include h

/-- A step that puts queries with targets does the same with the other service. -/
theorem step_congr {step : Step σ} (hq : step.isQuerying = true ∧ step.isOrdinary = true)
    (ht : step.isTargeted = true) :
    { s with service := svc }.step step =
      ((s.step step).1, { (s.step step).2 with service := svc }) := by
  cases step with
  | check q => simp only [step, withRun, Policy.check_congr h ht]
  | evaluateBatch principal owner activity targets =>
      simp only [step, withRun, Policy.evaluateBatch_congr h]
  | checkByName principal owner activity target =>
      simp only [step, withRun, Policy.checkByName_congr h principal owner activity ht]
  | resolveNames owner activity target =>
      simp only [step, Policy.resolveNames_congr h]
      rcases Policy.resolveNames s.service owner activity target s.run with ⟨_ | names, r⟩ <;> rfl
  | loadInCache _ => cases hq.1
  | search _ => cases hq.2
  | cache _ => cases hq.1
  | refresh => cases hq.1
  | alter _ => cases hq.2
  | _ => rfl

theorem steps_congr {steps : List (Step σ)}
    (hq : ∀ step ∈ steps, step.isQuerying = true ∧ step.isOrdinary = true)
    (ht : ∀ step ∈ steps, step.isTargeted = true) :
    { s with service := svc }.steps steps = { s.steps steps with service := svc } := by
  induction steps generalizing s with
  | nil => rfl
  | cons step steps ih =>
      obtain ⟨hq, hqs⟩ := List.forall_mem_cons.mp hq
      obtain ⟨ht, hts⟩ := List.forall_mem_cons.mp ht
      have h' : (s.step step).2.service.Agrees svc := by rwa [step_service]
      rw [steps_cons, steps_cons, step_congr h hq ht]
      exact ih h' hqs hts

end Session

end GrantPath
