import Arbor.Proofs.Sessions

/-!
# Refused commands change nothing

An edit looks before it writes.  To see that nothing is written before a refusal, edits are spelled
out here one write after the other, on a draft that keeps what was written when the edit stops.

* `Draft`, `Drafting`            a forest that is being written to, and what is done to it;
* `Drafting.edit`                each edit, write by write;
* `Drafting.edit_on`             it ends as `Forest.edit` says, and a refusal leaves the draft alone;
* `Reachable.step_eq_of_error`   a refused command leaves the session as it was;
* `Reachable.run_carriedOut`     so it may as well be left out of a run;
* `Reachable.refusals_change_nothing`  all three after every run.
-/

namespace Arbor

/-! ## drafts -/

/-- a forest on the way through an edit, with the notices given so far -/
structure Draft where
  forest : Forest
  notices : List Notice

/-- what is done to a draft until it ends or stops at a fault; what was written before stays -/
abbrev Drafting := ExceptT Fault (StateM Draft)

namespace Drafting

def look {α : Type} (read : Forest → α) : Drafting α := do
  return read (← get).forest

def check {α : Type} (test : Forest → Except Fault α) : Drafting α := do
  match test (← get).forest with
  | .ok a => return a
  | .error fault => throw fault

def write (n : NodeId) (change : Node → Node) : Drafting Unit :=
  modify fun d => { d with forest := d.forest.update n change }

def notify (notice : Notice) : Drafting Unit :=
  modify fun d => { d with notices := d.notices ++ [notice] }

/-! ## edits write by write -/

def addBranch (p : NodeId) (branch : Value) : Drafting NodeId := do
  let b ← check (·.attachable p branch)
  write b fun node => { node with parent := some p }
  write p fun node => { node with branches := node.branches ++ [b] }
  return b

def removeBranch (p : NodeId) (branch : Value) : Drafting (Option NodeId) := do
  match ← look (·.branch? p branch) with
  | none =>
    notify (.nothingToRemove branch p)
    return none
  | some b =>
    write p fun node => { node with branches := node.branches.erase b }
    write b fun node => { node with parent := none }
    return some b

def replaceBranch (p : NodeId) (old new : Value) : Drafting (Option NodeId) := do
  match ← look (·.branch? p old) with
  | none =>
    notify (.nothingToReplace old p)
    return none
  | some b =>
    if new = .node b then return none
    let c ← check (·.attachable p new)
    write c fun node => { node with parent := some p }
    write p fun node => { node with branches := node.branches.replace b c }
    write b fun node => { node with parent := none }
    return some b

def storeAttribute (n : NodeId) (name : String) (value : Value) : Drafting Unit := do
  let text ← check fun _ => value.stored
  write n fun node => { node with attributes := Dictionary.put name text node.attributes }

def uproot (n : NodeId) : Drafting Unit := do
  match ← look fun f => (f.node n).parent with
  | none => return
  | some p => discard (removeBranch p (.node n))

def release : List NodeId → Drafting Unit
  | [] => return
  | n :: rest => do
    write n Node.released
    release rest

def destroy (n : NodeId) : Drafting Nat := do
  let doomed ← look fun f => f.enumerate n ++ [n]
  uproot n
  release doomed
  notify (.released doomed.length n)
  return doomed.length

def edit : Edit → Drafting Answer
  | .add n branch => return .node (← addBranch n branch)
  | .remove n branch => return .ofNode? (← removeBranch n branch)
  | .replace n old new => return .ofNode? (← replaceBranch n old new)
  | .setAttribute n name value => do
    storeAttribute n name value
    return .nothing
  | .removeAttribute n name => do
    write n fun node => { node with attributes := node.attributes.erase name }
    return .nothing
  | .tag n t => do
    write n fun node =>
      { node with tags := if t ∈ node.tags then node.tags else node.tags ++ [t] }
    return .nothing
  | .destroy n => return .number (← destroy n)

/-! ## carrying them out -/

/-- the result or the fault it stopped at, and the draft as it is then -/
def on {α : Type} (x : Drafting α) (d : Draft) : Except Fault α × Draft := x.run.run d

theorem on_bind_ok {α β : Type} {x : Drafting α} {next : α → Drafting β} {d e : Draft} {a : α}
    (h : x.on d = (.ok a, e)) : (x >>= next).on d = (next a).on e := by
  unfold on at h ⊢
  rw [ExceptT.run_bind, StateT.run_bind, h]
  rfl

theorem on_bind_error {α β : Type} {x : Drafting α} {next : α → Drafting β} {d e : Draft}
    {fault : Fault} (h : x.on d = (.error fault, e)) : (x >>= next).on d = (.error fault, e) := by
  unfold on at h ⊢
  rw [ExceptT.run_bind, StateT.run_bind, h]
  rfl

theorem on_check {α : Type} (test : Forest → Except Fault α) (d : Draft) :
    (check test).on d = (test d.forest, d) := by
  show (match test d.forest with
    | .ok a => (pure a : Drafting α)
    | .error fault => throw fault).on d = _
  cases test d.forest <;> rfl

theorem release_on (ns : List NodeId) (d : Draft) :
    (release ns).on d = (.ok (), ⟨ns.foldl Forest.release d.forest, d.notices⟩) := by
  induction ns generalizing d with
  | nil => rfl
  | cons n rest ih => exact ih ⟨d.forest.release n, d.notices⟩

end Drafting

namespace Draft

/-- the draft that a change makes of this one; a refusal makes nothing of it -/
def outcome {α : Type} (d : Draft) : Except Fault (Change α) → Except Fault α × Draft
  | .ok c => (.ok c.result, ⟨c.forest, d.notices ++ c.notices⟩)
  | .error fault => (.error fault, d)

theorem outcome_silent {α : Type} (d : Draft) (a : α) (f : Forest) :
    d.outcome (.ok (.silent a f)) = (.ok a, ⟨f, d.notices⟩) := by
  simp [outcome, Change.silent]

end Draft

namespace Drafting

theorem addBranch_on (p : NodeId) (v : Value) (d : Draft) :
    (addBranch p v).on d = d.outcome (d.forest.addBranch p v) := by
  have hcheck := on_check (·.attachable p v) d
  unfold Forest.addBranch
  cases hv : d.forest.attachable p v with
  | error fault =>
    rw [hv] at hcheck
    exact on_bind_error hcheck
  | ok b =>
    rw [hv] at hcheck
    rw [addBranch, on_bind_ok hcheck, Draft.outcome_silent]
    rfl

theorem removeBranch_on (p : NodeId) (v : Value) (d : Draft) :
    (removeBranch p v).on d = d.outcome (.ok (d.forest.removeBranch p v)) := by
  unfold Forest.removeBranch
  show (match d.forest.branch? p v with
    | none => _
    | some b => _ : Drafting (Option NodeId)).on d = _
  cases d.forest.branch? p v with
  | none => rfl
  | some b =>
    rw [Draft.outcome_silent]
    rfl

/-- the branch to be replaced is found before the new one is looked at, and nothing is written yet -/
theorem replaceBranch_on (p : NodeId) (old new : Value) (d : Draft) :
    (replaceBranch p old new).on d = d.outcome (d.forest.replaceBranch p old new) := by
  unfold Forest.replaceBranch
  show (match d.forest.branch? p old with
    | none => _
    | some b => _ : Drafting (Option NodeId)).on d = _
  cases d.forest.branch? p old with
  | none => rfl
  | some b =>
    show (if new = .node b then _ else _ : Drafting (Option NodeId)).on d =
      d.outcome (if new = .node b then _ else _)
    by_cases hnew : new = .node b
    · rw [if_pos hnew, if_pos hnew, Draft.outcome_silent]
      rfl
    · rw [if_neg hnew, if_neg hnew]
      have hcheck := on_check (·.attachable p new) d
      cases hv : d.forest.attachable p new with
      | error fault =>
        rw [hv] at hcheck
        exact on_bind_error hcheck
      | ok c =>
        rw [hv] at hcheck
        refine (on_bind_ok hcheck).trans ?_
        rw [Draft.outcome_silent]
        rfl

/-- a result that is only renamed in the end -/
theorem on_map {α β : Type} (g : α → β) {x : Drafting α} {d : Draft}
    {o : Except Fault (Change α)} (h : x.on d = d.outcome o) :
    (x >>= fun a => pure (g a)).on d = d.outcome (o >>= fun c => pure (c.map g)) := by
  cases o with
  | error fault => exact on_bind_error h
  | ok c => exact on_bind_ok h

theorem uproot_on (n : NodeId) (d : Draft) :
    (uproot n).on d = d.outcome (.ok (d.forest.uproot n)) := by
  unfold Forest.uproot
  show (match (d.forest.node n).parent with
    | none => _
    | some p => _ : Drafting Unit).on d = _
  cases (d.forest.node n).parent with
  | none =>
    rw [Draft.outcome_silent]
    rfl
  | some p => exact on_map (fun _ => ()) (removeBranch_on p (.node n) d)

theorem destroy_on (n : NodeId) (d : Draft) :
    (destroy n).on d = d.outcome (.ok (d.forest.destroy n)) := by
  have huproot := uproot_on n d
  have hrelease := release_on (d.forest.enumerate n ++ [n])
    ⟨(d.forest.uproot n).forest, d.notices ++ (d.forest.uproot n).notices⟩
  refine (on_bind_ok huproot).trans ((on_bind_ok hrelease).trans ?_)
  show (Except.ok _, Draft.mk _ ((d.notices ++ (d.forest.uproot n).notices) ++ [_])) =
    (Except.ok _, Draft.mk _ (d.notices ++ ((d.forest.uproot n).notices ++ [_])))
  rw [List.append_assoc]
  rfl

theorem storeAttribute_on (n : NodeId) (name : String) (v : Value) (d : Draft) :
    (storeAttribute n name v).on d =
      d.outcome (d.forest.storeAttribute n name v >>= fun f => pure (.silent () f)) := by
  have hcheck := on_check (fun _ => v.stored) d
  unfold Forest.storeAttribute
  cases hv : v.stored with
  | error fault => exact on_bind_error (hcheck.trans (congrArg (·, d) hv))
  | ok text =>
    refine (on_bind_ok (hcheck.trans (congrArg (·, d) hv))).trans ?_
    exact (Draft.outcome_silent d () (d.forest.setAttribute n name text)).symm

/-- Write by write, an edit ends as it does at once; when it is refused, nothing was written. -/
theorem edit_on (e : Edit) (d : Draft) : (edit e).on d = d.outcome (d.forest.edit e) := by
  cases e with
  | add p v => exact on_map Answer.node (addBranch_on p v d)
  | remove p v => exact on_map Answer.ofNode? (removeBranch_on p v d)
  | replace p old new => exact on_map Answer.ofNode? (replaceBranch_on p old new d)
  | setAttribute n name v =>
    refine (on_map (fun _ => Answer.nothing) (storeAttribute_on n name v d)).trans ?_
    show _ = d.outcome (d.forest.storeAttribute n name v >>= fun f => pure (.silent Answer.nothing f))
    cases d.forest.storeAttribute n name v <;> rfl
  | removeAttribute n name =>
    exact (Draft.outcome_silent d Answer.nothing (d.forest.removeAttribute n name)).symm
  | tag n t => exact (Draft.outcome_silent d Answer.nothing (d.forest.tag n t)).symm
  | destroy n => exact on_map Answer.number (destroy_on n d)

end Drafting

/-! ## refused commands -/

/-- whether the command was carried out -/
def Reply.accepted (r : Reply) : Bool := r.outcome.isOk

namespace Session

/-- the commands of a run that are carried out in its course -/
def carriedOut (s : Session) (commands : List Command) : List Command :=
  ((commands.zip (s.run commands).1).filter fun answered => answered.2.accepted).map Prod.fst

theorem carriedOut_cons (s : Session) (c : Command) (rest : List Command) :
    s.carriedOut (c :: rest) =
      (if (s.step c).1.accepted then [c] else []) ++ (s.step c).2.carriedOut rest := by
  show (((c, (s.step c).1) :: rest.zip ((s.step c).2.run rest).1).filter _).map Prod.fst = _
  rw [List.filter_cons]
  show (if (s.step c).1.accepted = true then _ else _ : List _).map Prod.fst = _
  split <;> rfl

namespace Reachable

theorem step_eq_of_error {s : Session} (h : s.Reachable) {c : Command} {fault : Fault}
    (hc : (s.step c).1.outcome = .error fault) : s.step c = (⟨.error fault, []⟩, s) := by
  rw [step] at hc ⊢
  cases hdone : s.attempt c with
  | ok done =>
    rw [hdone] at hc
    cases hc
  | error e =>
    rw [hdone] at hc
    cases hc
    show (_, s.settle) = (_, s)
    rw [h.settle_eq]

theorem run_carriedOut {s : Session} (h : s.Reachable) (commands : List Command) :
    s.run (s.carriedOut commands) =
      ((s.run commands).1.filter Reply.accepted, (s.run commands).2) := by
  induction commands generalizing s with
  | nil => rfl
  | cons c rest ih =>
    rw [carriedOut_cons]
    show _ = (((s.step c).1 :: ((s.step c).2.run rest).1).filter Reply.accepted,
      ((s.step c).2.run rest).2)
    cases hc : (s.step c).1.outcome with
    | ok answer =>
      have haccepted : (s.step c).1.accepted = true := by
        unfold Reply.accepted
        rw [hc]
        rfl
      rw [if_pos haccepted, List.filter_cons_of_pos haccepted]
      show ((s.step c).1 :: ((s.step c).2.run ((s.step c).2.carriedOut rest)).1,
        ((s.step c).2.run ((s.step c).2.carriedOut rest)).2) = _
      rw [ih (h.after_step c)]
    | error fault =>
      have hrefused : (s.step c).1.accepted = false := by
        unfold Reply.accepted
        rw [hc]
        rfl
      -- the session after a refusal is the one before it
      rw [h.step_eq_of_error hc] at hrefused ⊢
      rw [hrefused, List.filter_cons_of_neg (by rw [hrefused]; exact Bool.false_ne_true)]
      exact ih h

/-- After every run a refused command leaves the whole session as it was and logs nothing.  The edits
among the commands write nothing before they are refused, and otherwise end as `Forest.edit` says.
A run without its refused commands gives the other replies and ends in the same session. -/
theorem refusals_change_nothing {s : Session} (h : s.Reachable) :
    (∀ c fault, (s.step c).1.outcome = .error fault → s.step c = (⟨.error fault, []⟩, s)) ∧
    (∀ e, (Drafting.edit e).on ⟨s.forest, []⟩ = Draft.outcome ⟨s.forest, []⟩ (s.forest.edit e)) ∧
    ∀ commands, s.run (s.carriedOut commands) =
      ((s.run commands).1.filter Reply.accepted, (s.run commands).2) :=
  ⟨fun _ _ hc => h.step_eq_of_error hc, fun e => Drafting.edit_on e _,
    fun commands => h.run_carriedOut commands⟩

end Reachable

/-- a root with a branch that has an attribute -/
def signpost : Session :=
  (start.run [.create "root", .create "post", .edit (.add 0 (.node 1)),
    .edit (.setAttribute 1 "colour" (.text "red"))]).2

theorem reachable_signpost : signpost.Reachable := ⟨_, rfl⟩

/-- the branch is found and the root refused in its place, and the attribute gets no value -/
def misguided : List Command :=
  [.edit (.replace 0 (.node 1) (.node 0)), .edit (.tag 1 "new"),
    .edit (.setAttribute 1 "colour" .absent), .duplicate 0 .deep]

/-- Of the four commands one is carried out, and it alone would have done the same. -/
theorem refusals_change_nothing_signpost :
    (signpost.Reachable ∧ (signpost.step (.edit (.replace 0 (.node 1) (.node 0)))).1.outcome =
        .error (.ownSubtree "root")) ∧
      signpost.step (.edit (.replace 0 (.node 1) (.node 0))) =
        (⟨.error (.ownSubtree "root"), []⟩, signpost) ∧
      signpost.run [.edit (.tag 1 "new")] =
        ((signpost.run misguided).1.filter Reply.accepted, (signpost.run misguided).2) := by
  have hrefused : (signpost.step (.edit (.replace 0 (.node 1) (.node 0)))).1.outcome =
      .error (.ownSubtree "root") := by decide +kernel
  obtain ⟨hsame, -, hrun⟩ := Reachable.refusals_change_nothing reachable_signpost
  have hleft : signpost.carriedOut misguided = [.edit (.tag 1 "new")] := by decide +kernel
  refine ⟨⟨reachable_signpost, hrefused⟩, hsame _ _ hrefused, ?_⟩
  rw [← hleft, hrun misguided]

end Session
end Arbor
