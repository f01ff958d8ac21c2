import DesignTokens.Proofs.Engine.Incremental
import DesignTokens.Proofs.Text.Pieces

/-!
# Which tokens an issue names

* `r.named` : the ids that the issues of a rule name; `r.unnamed` : the backdrop of a contrast pair and
  the reference of a requirement, on which the rule depends without naming them;
* `Rule.tokenIds_of_check` : the ids of an issue are those that its rule names, cut at bars;
* `commit_issues_named` : an issue that a commit gives names a token of the commit, or its rule depends
  on such a token without naming it;
* `exists_commit_issue_unnamed` : the second case occurs.
-/

namespace DesignTokens

theorem Issue.id_of_ofVerdict {id rule : String} {tag : Option String}
    {verdict : Except String (Option String)} {i : Issue} (h : ofVerdict id rule tag verdict = some i) :
    i.id = id := by
  unfold ofVerdict at h
  split at h <;> cases h <;> rfl

namespace Rule

def named : Rule → List String
  | contrast p => [p.foreground, p.background]
  | threshold _ r => r.participants
  | order r => r.participants
  | crossAxis (.conditional c r _) => [c.id, r.id]
  | crossAxis (.compare p _) => [p.left, p.right]

/-- The ids on which a rule depends while its issues do not name them. -/
def unnamed : Rule → List String
  | contrast p => p.backdrop.toList
  | threshold _ _ => []
  | order _ => []
  | crossAxis (.conditional _ r _) => r.reference.toList
  | crossAxis (.compare _ _) => []

variable {r : Rule} {view : View} {i : Issue} {x : String}

theorem mem_named_or_unnamed (h : x ∈ r.participants) : x ∈ r.named ∨ x ∈ r.unnamed := by
  match r with
  | contrast p =>
    obtain ⟨hx, -⟩ := ContrastPair.mem_participants.1 h
    simp only [named, unnamed, List.mem_cons, List.not_mem_nil, or_false, Option.mem_toList]
    tauto
  | threshold _ r => exact .inl h
  | order r => exact .inl h
  | crossAxis (.conditional c r tag) => exact List.mem_append.1 h
  | crossAxis (.compare p tag) => exact .inl h

theorem named_ne_nil (r : Rule) : r.named ≠ [] := by
  match r with
  | contrast p => simp [named]
  | threshold _ r =>
    intro h
    have hid : r.id ∈ r.participants := by simp [ThresholdRule.participants]
    have hnil : r.participants = [] := h
    rw [hnil] at hid
    cases hid
  | order r => simp [named, OrderRule.participants]
  | crossAxis (.conditional c r tag) => simp [named]
  | crossAxis (.compare p tag) => simp [named]

theorem pairId_eq_intercalate (a b : String) : pairId a b = String.intercalate "|" [a, b] := by
  simp [pairId]

theorem id_of_check (h : r.check view = some i) : i.id = String.intercalate "|" r.named := by
  match r with
  | contrast p => exact (Issue.id_of_ofVerdict h).trans (pairId_eq_intercalate _ _)
  | threshold limits r => exact Issue.id_of_ofVerdict h
  | order r =>
    obtain ⟨v, -, rfl⟩ := Option.map_eq_some_iff.1 h
    exact pairId_eq_intercalate _ _
  | crossAxis (.conditional c r tag) =>
    exact (Issue.id_of_ofVerdict h).trans (pairId_eq_intercalate _ _)
  | crossAxis (.compare p tag) => exact (Issue.id_of_ofVerdict h).trans (pairId_eq_intercalate _ _)

theorem tokenIds_of_check (h : r.check view = some i) :
    i.tokenIds = r.named.flatMap (Text.splitString '|') := by
  rw [Issue.tokenIds, id_of_check h]
  exact Text.splitString_intercalate '|' r.named_ne_nil

theorem mem_tokenIds_of_mem_named (h : r.check view = some i) (hx : x ∈ r.named) (hbar : '|' ∉ x.toList) :
    x ∈ i.tokenIds := by
  rw [tokenIds_of_check h, List.mem_flatMap]
  refine ⟨x, hx, ?_⟩
  rw [Text.splitString_of_not_mem hbar]
  exact List.mem_singleton_self x

end Rule

namespace Engine

variable {e : Engine} {id : String} {v : TokenValue} {i : Issue}

theorem mem_evaluate {candidates : List String} : i ∈ e.evaluate candidates ↔
    ∃ r ∈ e.checkers.flatMap Checker.rules,
      (∃ x ∈ r.participants, x ∈ candidates) ∧ r.check e.view = some i := by
  rw [evaluate_eq_flatMap, List.mem_flatMap]
  refine exists_congr fun r => and_congr_right fun _ => ?_
  rw [← touches_iff, Rule.issues]
  split <;> simp_all

theorem commit_issues_of_dependents_eq_nil (h : e.graph.dependents id = []) (v : TokenValue) :
    e.changed id = [id] ∧ (e.commit id v).1.issues = (e.assign id v).evaluate [id] := by
  have hchanged : e.changed id = [id] := by rw [changed, affected, DependencyGraph.affected_eq_nil h]
  refine ⟨hchanged, ?_⟩
  show (e.declare id v).evaluate (e.changed id) = _
  rw [hchanged, declare_of_dependents_eq_nil h]

theorem commit_issues_named (hbar : ∀ x ∈ e.changed id, '|' ∉ x.toList) :
    ∀ i ∈ (e.commit id v).1.issues,
      ∃ r ∈ e.checkers.flatMap Checker.rules, r.check (e.commit id v).2.view = some i ∧
        ((∃ x ∈ e.changed id, x ∈ i.tokenIds) ∨ ∃ x ∈ e.changed id, x ∈ r.unnamed) := by
  intro i hi
  have hmem : i ∈ (e.commit id v).2.evaluate (e.changed id) := hi
  obtain ⟨r, hr, ⟨x, hx, hchanged⟩, hcheck⟩ := mem_evaluate.1 hmem
  refine ⟨r, hr, hcheck, ?_⟩
  rcases Rule.mem_named_or_unnamed hx with hnamed | hunnamed
  · exact .inl ⟨x, hchanged, Rule.mem_tokenIds_of_mem_named hcheck hnamed (hbar x hchanged)⟩
  · exact .inr ⟨x, hchanged, hunnamed⟩

/-- A rule that compares the two ends of the chain. -/
def endsRule : RuleSet :=
  { RuleSet.empty with crossAxis := [.compare ⟨"a", .atMost, "c", 0.0⟩ none] }

/-- The last token of the chain gets a value without a length, so that the rule cannot be checked. -/
theorem commit_issues_named_aliasChain : ∃ e : Engine, ∃ i, buildEngine endsRule aliasChain = .ok e ∧
    i ∈ (e.commit "c" (.text "wide")).1.issues ∧
      ∃ r ∈ e.checkers.flatMap Checker.rules, r.check (e.commit "c" (.text "wide")).2.view = some i ∧
        ((∃ x ∈ e.changed "c", x ∈ i.tokenIds) ∨ ∃ x ∈ e.changed "c", x ∈ r.unnamed) := by
  obtain ⟨e, hbuild, hdependents, i, hi, -⟩ : ∃ e, buildEngine endsRule aliasChain = .ok e ∧
      e.graph.dependents "c" = [] ∧ ∃ i ∈ (e.assign "c" (.text "wide")).evaluate ["c"], True :=
    exists_eq_ok_and (by decide +kernel)
  obtain ⟨hchanged, hissues⟩ := commit_issues_of_dependents_eq_nil hdependents (.text "wide")
  have hbar : ∀ x ∈ e.changed "c", '|' ∉ x.toList := by
    rw [hchanged]
    decide
  have hmem : i ∈ (e.commit "c" (.text "wide")).1.issues := hissues ▸ hi
  exact ⟨e, i, hbuild, hmem, commit_issues_named hbar i hmem⟩

/-- A contrast pair with a backdrop, and a requirement with a reference. -/
def supportedRules : RuleSet :=
  { RuleSet.empty with
    contrast := [⟨"text", "page", 4.5, some "under", none⟩]
    crossAxis := [.conditional ⟨"font", .atLeast, 18.0⟩ ⟨"line", .atLeast, some "floor", none⟩ none] }

def supportedTokens : Json :=
  .obj [("floor", .obj [("$value", .str "20px")]), ("font", .obj [("$value", .str "20px")]),
    ("line", .obj [("$value", .str "22px")]), ("page", .obj [("$value", .str "#ffffff")]),
    ("text", .obj [("$value", .str "#000000")]), ("under", .obj [("$value", .str "#ffffff")])]

/-- The backdrop becomes a text that is no colour, and the reference a size that is not reached. -/
theorem exists_commit_issue_unnamed : ∃ e, buildEngine supportedRules supportedTokens = .ok e ∧
    (∃ i ∈ (e.commit "under" (.text "none")).1.issues, ∀ x ∈ e.changed "under", x ∉ i.tokenIds) ∧
      ∃ i ∈ (e.commit "floor" (.text "28px")).1.issues, ∀ x ∈ e.changed "floor", x ∉ i.tokenIds := by
  obtain ⟨e, hbuild, hunder, hfloor, hbackdrop, hreference⟩ :
      ∃ e, buildEngine supportedRules supportedTokens = .ok e ∧
        e.graph.dependents "under" = [] ∧ e.graph.dependents "floor" = [] ∧
        (∃ i ∈ (e.assign "under" (.text "none")).evaluate ["under"], ∀ x ∈ ["under"], x ∉ i.tokenIds) ∧
        ∃ i ∈ (e.assign "floor" (.text "28px")).evaluate ["floor"], ∀ x ∈ ["floor"], x ∉ i.tokenIds :=
    exists_eq_ok_and (by decide +kernel)
  refine ⟨e, hbuild, ?_, ?_⟩
  · obtain ⟨hchanged, hissues⟩ := commit_issues_of_dependents_eq_nil hunder (.text "none")
    rwa [hchanged, hissues]
  · obtain ⟨hchanged, hissues⟩ := commit_issues_of_dependents_eq_nil hfloor (.text "28px")
    rwa [hchanged, hissues]

end Engine

end DesignTokens
