import DesignTokens.Proofs.Engine.Run
import DesignTokens.Report

/-!
# What the reports are made from

* `buildEngine_eq_ok` : the engine of a tree is that of the resolved tree with the checkers of the rules;
* `commitValue_eq_ok` : a commit is reported if the token exists;
* `validate_eq_ok` : what the report on a tree has;
* `validate_snapshotHash` : the hash in the report on a tree is that of its resolved values.
-/

namespace DesignTokens

variable {rs : RuleSet} {tree : Json} {r : Resolution} {e : Engine} {id : String} {v : TokenValue}
  {report : CommitReport}

theorem buildEngine_eq_ok : buildEngine rs tree = .ok e ↔
    ∃ r, resolve tree = .ok r ∧ e = (Engine.ofResolution r).register rs.checkers := by
  unfold buildEngine
  cases resolve tree with
  | ok r => simp [eq_comm]
  | error err => simp

theorem commitValue_eq_ok : commitValue rs tree id v = .ok report ↔
    ∃ e, buildEngine rs tree = .ok e ∧ id ∈ e.values.keys ∧
      report = ⟨(e.commit id v).1, snapshotHash (e.commit id v).2.values⟩ := by
  unfold commitValue
  cases buildEngine rs tree with
  | error err => simp [bind, Except.bind]
  | ok e =>
    simp only [bind, Except.bind, Except.ok.injEq, exists_eq_left']
    by_cases hid : e.values.contains id
    · have hmem := e.values.contains_iff.1 hid
      rw [if_pos hid]
      simp [hmem, pure, Except.pure, eq_comm]
    · have hmem := mt e.values.contains_iff.2 hid
      rw [if_neg hid]
      simp [hmem, throw, throwThe, MonadExceptOf.throw]

theorem validate_eq_ok (h : buildEngine rs tree = .ok e) : validate rs tree =
    .ok ⟨!e.evaluateAll.any Issue.isError, snapshotHash e.values, e.values.size, e.evaluateAll,
      orderCycles rs, summarize e.evaluateAll⟩ := by
  unfold validate
  rw [h]
  rfl

theorem validate_snapshotHash (rs : RuleSet) (h : resolve tree = .ok r) :
    ∃ report, validate rs tree = .ok report ∧ report.snapshotHash = snapshotHash r.values :=
  ⟨_, validate_eq_ok (buildEngine_eq_ok.2 ⟨r, h, rfl⟩), rfl⟩

end DesignTokens
