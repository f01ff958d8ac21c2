import DesignTokens.Expr.Document
import DesignTokens.Proofs.Decimal.Nearest
import DesignTokens.Proofs.Json.Leaves

/-!
# Expressions are read back from their documents

* `n.Representable`, `j.Representable` : what a document can hold as a number: a whole number of 64
  bits, with or without sign, or a finite float. `Number.Representable.isFinite` : so its float is
  finite;
* `e.literals` : the numbers of an expression, from left to right;
* `ReadAs j e` : the document is read as the expression, in whichever order its members stand.
  `readAs_toJson` : an expression with finite numbers is read back from its document;
* `literals_subset_of_ofJson?` : an expression that was read has no numbers but those of the document;
* `readAs_toJson_iff` : so just the expressions with finite numbers are read back, and all that were
  ever read are among them.
-/

namespace DesignTokens

/-! ## The numbers of a document -/

/-- A document can hold the number: a whole one of 64 bits, with or without sign, or a finite float. -/
def Number.Representable : Number → Prop
  | int n => -2 ^ 63 ≤ n ∧ n < 2 ^ 64
  | float x => x.isFinite = true

instance : DecidablePred Number.Representable
  | .int _ => inferInstanceAs (Decidable (_ ∧ _))
  | .float _ => inferInstanceAs (Decidable (_ = true))

theorem Number.Representable.isFinite : ∀ {n : Number}, n.Representable → n.toFloat.isFinite = true
  | .float _, h => h
  | .int n, h => by
    have hsmall : ((n.natAbs : ℕ) : ℚ) / (1 : ℕ) < 2 ^ (1023 : ℤ) := by
      have habs : n.natAbs < 2 ^ 1023 := by
        obtain ⟨hlow, hhigh⟩ := h
        omega
      rw [Nat.cast_one, div_one]
      exact_mod_cast habs
    obtain ⟨hplain, hnegated⟩ := Decimal.isFinite_ofRatio one_pos hsmall
    rw [toFloat, floatOfInt]
    split_ifs
    · exact hnegated
    · exact hplain

namespace Json

def Representable (j : Json) : Prop := ∀ n ∈ j.numbers, n.Representable

instance : DecidablePred Representable := fun j =>
  inferInstanceAs (Decidable (∀ n ∈ j.numbers, n.Representable))

theorem Representable.isFinite {j : Json} (h : j.Representable) :
    ∀ x ∈ j.numbers.map Number.toFloat, x.isFinite = true := by
  intro x hx
  obtain ⟨n, hn, rfl⟩ := List.mem_map.1 hx
  exact (h n hn).isFinite

end Json

namespace Expr

mutual

/-- The numbers of an expression, from left to right. -/
def literals : Expr → List Float
  | literal x => [x]
  | ref _ => []
  | arithmetic _ a b => literals a ++ literals b
  | clamp v lo hi => literals v ++ literals lo ++ literals hi
  | test _ a b => literals a ++ literals b
  | piecewise bs e => branchLiterals bs ++ literals e

def branchLiterals : List (Expr × Expr) → List Float
  | [] => []
  | (c, e) :: bs => literals c ++ literals e ++ branchLiterals bs

end

/-! ## From the expression to its document and back -/

section Read

variable {v a b c e : Expr} {bs : List (Expr × Expr)} {i j k : Json} {js : List Json}

theorem ofJson?_arithmetic (op : Arithmetic) (ha : ofJson? i = some a) (hb : ofJson? j = some b) :
    ofJson? (.obj [(op.name, .arr [i, j])]) = some (arithmetic op a b) := by
  rw [ofJson?]
  cases op <;> rw [ofTagged?, ha, hb] <;> rfl

theorem ofJson?_test (op : Test) (ha : ofJson? i = some a) (hb : ofJson? j = some b) :
    ofJson? (.obj [(op.name, .arr [i, j])]) = some (test op a b) := by
  rw [ofJson?]
  cases op <;> rw [ofTagged?, ha, hb] <;> rfl

theorem ofJson?_clamp (hv : ofJson? i = some v) (ha : ofJson? j = some a) (hb : ofJson? k = some b) :
    ofJson? (.obj [("clamp", .arr [i, j, k])]) = some (clamp v a b) := by
  rw [ofJson?, ofTagged?, if_pos rfl, hv, ha, hb]
  rfl

theorem ofJson?_piecewise (hbs : branchItems? js = some bs) (he : ofJson? j = some e) :
    ofJson? (.obj [("piecewise", .obj [("branches", .arr js), ("else", j)])]) = some (piecewise bs e) := by
  have hexprs : membersAsExprs [("branches", .arr js), ("else", j)] =
      [("branches", ofJson? (.arr js)), ("else", some e)] := by
    rw [membersAsExprs, membersAsExprs, membersAsExprs, he]
  have hbranches : membersAsBranches [("branches", .arr js), ("else", j)] =
      [("branches", some bs), ("else", branches? j)] := by
    rw [membersAsBranches, membersAsBranches, membersAsBranches, branches?, hbs]
  rw [ofJson?, ofTagged?, if_pos rfl, hexprs, hbranches]
  rfl

/-- The members of a branch may stand in either order. -/
theorem branch?_obj (hc : ofJson? i = some c) (he : ofJson? j = some e) :
    branch? (.obj [("when", i), ("then", j)]) = some (c, e) ∧
      branch? (.obj [("then", j), ("when", i)]) = some (c, e) := by
  simp only [branch?, membersAsExprs, hc, he]
  exact ⟨rfl, rfl⟩

theorem normal_piecewise (js : List Json) (j : Json) :
    (Json.obj [("piecewise", .obj [("branches", .arr js), ("else", j)])]).normal =
      .obj [("piecewise", .obj [("branches", .arr (Json.normalItems js)), ("else", j.normal)])] := by
  have horder : compare "else" "branches" = .gt := by decide
  simp only [Json.normal, Json.normalMembers, insertEntry, horder]

theorem normal_branch (i j : Json) :
    (Json.obj [("when", i), ("then", j)]).normal = .obj [("then", j.normal), ("when", i.normal)] := by
  have horder : compare "then" "when" = .lt := by decide
  simp only [Json.normal, Json.normalMembers, insertEntry, horder]

end Read

/-- The document is read as the expression, also with the members of its objects in ascending order. -/
def ReadAs (j : Json) (e : Expr) : Prop := ofJson? j = some e ∧ ofJson? j.normal = some e

mutual

theorem readAs_toJson : ∀ e : Expr, (∀ x ∈ e.literals, x.isFinite = true) → ReadAs e.toJson e
  | .literal x, h => by
    rw [toJson, if_pos (h x (by simp [literals]))]
    exact ⟨rfl, rfl⟩
  | .ref id, _ => by
    rw [toJson]
    exact ⟨rfl, rfl⟩
  | .arithmetic op a b, h => by
    rw [literals, List.forall_mem_append] at h
    obtain ⟨ha, ha'⟩ := readAs_toJson a h.1
    obtain ⟨hb, hb'⟩ := readAs_toJson b h.2
    rw [toJson]
    exact ⟨ofJson?_arithmetic op ha hb, ofJson?_arithmetic op ha' hb'⟩
  | .clamp v lo hi, h => by
    rw [literals, List.forall_mem_append, List.forall_mem_append] at h
    obtain ⟨hv, hv'⟩ := readAs_toJson v h.1.1
    obtain ⟨hlo, hlo'⟩ := readAs_toJson lo h.1.2
    obtain ⟨hhi, hhi'⟩ := readAs_toJson hi h.2
    rw [toJson]
    exact ⟨ofJson?_clamp hv hlo hhi, ofJson?_clamp hv' hlo' hhi'⟩
  | .test op a b, h => by
    rw [literals, List.forall_mem_append] at h
    obtain ⟨ha, ha'⟩ := readAs_toJson a h.1
    obtain ⟨hb, hb'⟩ := readAs_toJson b h.2
    rw [toJson]
    exact ⟨ofJson?_test op ha hb, ofJson?_test op ha' hb'⟩
  | .piecewise bs e, h => by
    rw [literals, List.forall_mem_append] at h
    obtain ⟨hbs, hbs'⟩ := branchItems?_branchesToJson bs h.1
    obtain ⟨he, he'⟩ := readAs_toJson e h.2
    rw [toJson, ReadAs, normal_piecewise]
    exact ⟨ofJson?_piecewise hbs he, ofJson?_piecewise hbs' he'⟩

theorem branchItems?_branchesToJson : ∀ bs : List (Expr × Expr),
    (∀ x ∈ branchLiterals bs, x.isFinite = true) → branchItems? (branchesToJson bs) = some bs ∧
      branchItems? (Json.normalItems (branchesToJson bs)) = some bs
  | [], _ => ⟨rfl, rfl⟩
  | (c, e) :: bs, h => by
    rw [branchLiterals, List.forall_mem_append, List.forall_mem_append] at h
    obtain ⟨hc, hc'⟩ := readAs_toJson c h.1.1
    obtain ⟨he, he'⟩ := readAs_toJson e h.1.2
    obtain ⟨hbs, hbs'⟩ := branchItems?_branchesToJson bs h.2
    rw [branchesToJson, Json.normalItems, normal_branch, branchItems?, branchItems?, (branch?_obj hc he).1,
      (branch?_obj hc' he').2, hbs, hbs']
    exact ⟨rfl, rfl⟩

end

/-! ## The numbers of what is read -/

theorem append_subset_append {α : Type} {as bs cs ds : List α} (h : as ⊆ cs) (h' : bs ⊆ ds) :
    as ++ bs ⊆ cs ++ ds :=
  List.append_subset.2
    ⟨List.subset_append_of_subset_left _ h, List.subset_append_of_subset_right _ h'⟩

/-- A record that gives a field has a member of its name. -/
theorem mem_of_required? {α : Type} {names : List String} {members : List (String × Option α)}
    {name : String} {x : α} (h : required? names members name = some x) : (name, some x) ∈ members := by
  obtain ⟨r, hr, hfield⟩ := Option.bind_eq_some_iff.1 h
  obtain ⟨y, hlookup, hy⟩ := Option.bind_eq_some_iff.1 hfield
  obtain rfl : y = some x := hy
  obtain ⟨before, after, rfl, -⟩ := List.lookup_eq_some_iff.1 hlookup
  unfold Record.ofMembers? at hr
  dsimp only at hr
  split at hr
  · have hmem : (name, some x) ∈ members.filter fun m => names.contains m.1 := by
      rw [Option.some.inj hr]
      simp
    exact List.mem_of_mem_filter hmem
  · cases hr

theorem literals_of_ofPair? {tag : String} {o p : Option Expr} (h : ofPair? tag o p = some e) :
    ∃ a b, o = some a ∧ p = some b ∧ e.literals = a.literals ++ b.literals := by
  unfold ofPair? at h
  split at h
  · obtain ⟨a, ha, h⟩ := Option.bind_eq_some_iff.1 h
    obtain ⟨b, hb, h⟩ := Option.bind_eq_some_iff.1 h
    cases h
    exact ⟨a, b, ha, hb, by rw [literals]⟩
  · obtain ⟨a, ha, h⟩ := Option.bind_eq_some_iff.1 h
    obtain ⟨b, hb, h⟩ := Option.bind_eq_some_iff.1 h
    cases h
    exact ⟨a, b, ha, hb, by rw [literals]⟩
  · cases h

theorem literals_of_ofChoice? {o : Option (List (Expr × Expr))} {p : Option Expr}
    (h : ofChoice? o p = some e) :
    ∃ bs e', o = some bs ∧ p = some e' ∧ e.literals = branchLiterals bs ++ e'.literals := by
  obtain ⟨bs, hbs, h⟩ := Option.bind_eq_some_iff.1 h
  obtain ⟨e', he', h⟩ := Option.bind_eq_some_iff.1 h
  cases h
  exact ⟨bs, e', hbs, he', by rw [literals]⟩

mutual

theorem literals_subset_of_ofJson? : ∀ {j : Json} {e : Expr}, ofJson? j = some e →
    e.literals ⊆ j.numbers.map Number.toFloat
  | .num n, e, h => by
    rw [ofJson?] at h
    cases h
    simp [literals, Json.numbers]
  | .obj [(tag, operands)], e, h => by
    rw [ofJson?] at h
    simpa [Json.numbers, Json.memberNumbers] using literals_subset_of_ofTagged? h
  | .null, _, h => by simp [ofJson?] at h
  | .bool _, _, h => by simp [ofJson?] at h
  | .str _, _, h => by simp [ofJson?] at h
  | .arr _, _, h => by simp [ofJson?] at h
  | .obj [], _, h => by simp [ofJson?] at h
  | .obj (_ :: _ :: _), _, h => by simp [ofJson?] at h

theorem literals_subset_of_ofTagged? {tag : String} : ∀ {j : Json} {e : Expr}, ofTagged? tag j = some e →
    e.literals ⊆ j.numbers.map Number.toFloat
  | .str id, e, h => by
    rw [ofTagged?] at h
    split at h <;> cases h
    simp [literals]
  | .arr [a, b], e, h => by
    rw [ofTagged?] at h
    simp only [Json.numbers, Json.itemNumbers, List.map_append, List.append_nil]
    split at h
    · obtain ⟨bs, e', hbs, he', hliterals⟩ := literals_of_ofChoice? h
      rw [hliterals]
      exact append_subset_append (literals_subset_of_branches? hbs) (literals_subset_of_ofJson? he')
    · obtain ⟨c, d, hc, hd, hliterals⟩ := literals_of_ofPair? h
      rw [hliterals]
      exact append_subset_append (literals_subset_of_ofJson? hc) (literals_subset_of_ofJson? hd)
  | .arr [a, b, c], e, h => by
    rw [ofTagged?] at h
    simp only [Json.numbers, Json.itemNumbers, List.map_append, List.append_nil]
    split at h
    · obtain ⟨v, hv, h⟩ := Option.bind_eq_some_iff.1 h
      obtain ⟨lo, hlo, h⟩ := Option.bind_eq_some_iff.1 h
      obtain ⟨hi, hhi, h⟩ := Option.bind_eq_some_iff.1 h
      cases h
      rw [literals, List.append_assoc]
      exact append_subset_append (literals_subset_of_ofJson? hv)
        (append_subset_append (literals_subset_of_ofJson? hlo) (literals_subset_of_ofJson? hhi))
    · cases h
  | .obj ms, e, h => by
    rw [ofTagged?] at h
    rw [Json.numbers]
    split at h
    · obtain ⟨bs, e', hbs, he', hliterals⟩ := literals_of_ofChoice? h
      rw [hliterals, List.append_subset]
      exact ⟨literals_subset_of_membersAsBranches (mem_of_required? hbs),
        literals_subset_of_membersAsExprs (mem_of_required? he')⟩
    · cases h
  | .null, _, h => by simp [ofTagged?] at h
  | .bool _, _, h => by simp [ofTagged?] at h
  | .num _, _, h => by simp [ofTagged?] at h
  | .arr [], _, h => by simp [ofTagged?] at h
  | .arr [_], _, h => by simp [ofTagged?] at h
  | .arr (_ :: _ :: _ :: _ :: _), _, h => by simp [ofTagged?] at h

theorem literals_subset_of_membersAsExprs {name : String} : ∀ {ms : List (String × Json)} {e : Expr},
    (name, some e) ∈ membersAsExprs ms → e.literals ⊆ (Json.memberNumbers ms).map Number.toFloat
  | (other, j) :: ms, e, h => by
    rw [membersAsExprs, List.mem_cons] at h
    rw [Json.memberNumbers, List.map_append]
    rcases h with h | h
    · exact List.subset_append_of_subset_left _ (literals_subset_of_ofJson? (Prod.mk.inj h).2.symm)
    · exact List.subset_append_of_subset_right _ (literals_subset_of_membersAsExprs h)

theorem literals_subset_of_membersAsBranches {name : String} : ∀ {ms : List (String × Json)}
    {bs : List (Expr × Expr)}, (name, some bs) ∈ membersAsBranches ms →
      branchLiterals bs ⊆ (Json.memberNumbers ms).map Number.toFloat
  | (other, j) :: ms, bs, h => by
    rw [membersAsBranches, List.mem_cons] at h
    rw [Json.memberNumbers, List.map_append]
    rcases h with h | h
    · exact List.subset_append_of_subset_left _ (literals_subset_of_branches? (Prod.mk.inj h).2.symm)
    · exact List.subset_append_of_subset_right _ (literals_subset_of_membersAsBranches h)

theorem literals_subset_of_branches? : ∀ {j : Json} {bs : List (Expr × Expr)}, branches? j = some bs →
    branchLiterals bs ⊆ j.numbers.map Number.toFloat
  | .arr js, bs, h => by
    rw [branches?] at h
    rw [Json.numbers]
    exact literals_subset_of_branchItems? h
  | .null, _, h => by simp [branches?] at h
  | .bool _, _, h => by simp [branches?] at h
  | .num _, _, h => by simp [branches?] at h
  | .str _, _, h => by simp [branches?] at h
  | .obj _, _, h => by simp [branches?] at h

theorem literals_subset_of_branchItems? : ∀ {js : List Json} {bs : List (Expr × Expr)},
    branchItems? js = some bs → branchLiterals bs ⊆ (Json.itemNumbers js).map Number.toFloat
  | [], bs, h => by
    rw [branchItems?] at h
    cases h
    simp [branchLiterals]
  | j :: js, bs, h => by
    rw [branchItems?] at h
    obtain ⟨b, hb, h⟩ := Option.bind_eq_some_iff.1 h
    obtain ⟨bs, hbs, h⟩ := Option.bind_eq_some_iff.1 h
    cases h
    rw [branchLiterals, Json.itemNumbers, List.map_append]
    exact append_subset_append (literals_subset_of_branch? hb) (literals_subset_of_branchItems? hbs)

theorem literals_subset_of_branch? : ∀ {j : Json} {b : Expr × Expr}, branch? j = some b →
    b.1.literals ++ b.2.literals ⊆ j.numbers.map Number.toFloat
  | .arr [c, e], b, h => by
    rw [branch?] at h
    obtain ⟨c', hc, h⟩ := Option.bind_eq_some_iff.1 h
    obtain ⟨e', he, h⟩ := Option.bind_eq_some_iff.1 h
    cases h
    simp only [Json.numbers, Json.itemNumbers, List.map_append, List.append_nil]
    exact append_subset_append (literals_subset_of_ofJson? hc) (literals_subset_of_ofJson? he)
  | .obj ms, b, h => by
    rw [branch?] at h
    obtain ⟨c', hc, h⟩ := Option.bind_eq_some_iff.1 h
    obtain ⟨e', he, h⟩ := Option.bind_eq_some_iff.1 h
    cases h
    rw [Json.numbers, List.append_subset]
    exact ⟨literals_subset_of_membersAsExprs (mem_of_required? hc),
      literals_subset_of_membersAsExprs (mem_of_required? he)⟩
  | .null, _, h => by simp [branch?] at h
  | .bool _, _, h => by simp [branch?] at h
  | .num _, _, h => by simp [branch?] at h
  | .str _, _, h => by simp [branch?] at h
  | .arr [], _, h => by simp [branch?] at h
  | .arr [_], _, h => by simp [branch?] at h
  | .arr (_ :: _ :: _ :: _), _, h => by simp [branch?] at h

end

/-! ## The numbers of what is written -/

mutual

theorem representable_toJson : ∀ e : Expr, ∀ n ∈ e.toJson.numbers, n.Representable
  | .literal x => by
    rw [toJson]
    split_ifs with hx
    · exact List.forall_mem_singleton.2 hx
    · exact List.forall_mem_nil _
  | .ref id => by
    rw [toJson]
    exact List.forall_mem_nil _
  | .arithmetic op a b => by
    simp only [toJson, Json.numbers, Json.memberNumbers, Json.itemNumbers, List.append_nil,
      List.forall_mem_append]
    exact ⟨representable_toJson a, representable_toJson b⟩
  | .clamp v lo hi => by
    simp only [toJson, Json.numbers, Json.memberNumbers, Json.itemNumbers, List.append_nil,
      List.forall_mem_append]
    exact ⟨representable_toJson v, representable_toJson lo, representable_toJson hi⟩
  | .test op a b => by
    simp only [toJson, Json.numbers, Json.memberNumbers, Json.itemNumbers, List.append_nil,
      List.forall_mem_append]
    exact ⟨representable_toJson a, representable_toJson b⟩
  | .piecewise bs e => by
    simp only [toJson, Json.numbers, Json.memberNumbers, List.append_nil, List.forall_mem_append]
    exact ⟨representable_branchesToJson bs, representable_toJson e⟩

theorem representable_branchesToJson : ∀ bs : List (Expr × Expr),
    ∀ n ∈ Json.itemNumbers (branchesToJson bs), n.Representable
  | [] => List.forall_mem_nil _
  | (c, e) :: bs => by
    simp only [branchesToJson, Json.itemNumbers, Json.numbers, Json.memberNumbers, List.append_nil,
      List.forall_mem_append]
    exact ⟨⟨representable_toJson c, representable_toJson e⟩, representable_branchesToJson bs⟩

end

/-- Just the expressions with finite numbers are read back from their documents, and any expression
that was read from some document is one of them. -/
theorem readAs_toJson_iff :
    (∀ e : Expr, ReadAs e.toJson e ↔ ∀ x ∈ e.literals, x.isFinite = true) ∧
    ∀ (j : Json) (e : Expr), j.Representable → ofJson? j = some e → ReadAs e.toJson e := by
  have hfinite {j : Json} {e : Expr} (hj : j.Representable) (h : ofJson? j = some e) :
      ∀ x ∈ e.literals, x.isFinite = true :=
    fun x hx => hj.isFinite x (literals_subset_of_ofJson? h hx)
  refine ⟨fun e => ⟨fun h => ?_, readAs_toJson e⟩, fun j e hj h => ?_⟩
  · exact hfinite (representable_toJson e) h.1
  · exact readAs_toJson e (hfinite hj h)

/-- A choice given as an array, with a branch as an array and one as an object in reverse order. -/
def choiceDocument : Json :=
  .obj [("piecewise", .arr
    [.arr [.arr [.obj [("gt", .arr [.obj [("ref", .str "size")], .num (.int 20)])], .num (.int (-1))],
      .obj [("then", .obj [("clamp", .arr [.num (.float 0.5), .num (.int 0), .obj [("ref", .str "gap")]])]),
        ("when", .obj [("eq", .arr [.num (.int 1), .num (.float 1)])])]],
      .obj [("sub", .arr [.obj [("ref", .str "size")], .num (.float 0.25)])]])]

def choice : Expr :=
  .piecewise
    [(.test .gt (.ref "size") (.literal 20), .literal (-1)),
      (.test .eq (.literal 1) (.literal 1), .clamp (.literal 0.5) (.literal 0) (.ref "gap"))]
    (.arithmetic .sub (.ref "size") (.literal 0.25))

theorem readAs_toJson_iff_choice : choiceDocument.Representable ∧ ofJson? choiceDocument = some choice ∧
    (∀ x ∈ choice.literals, x.isFinite = true) ∧ ReadAs choice.toJson choice ∧
    ofJson? (Expr.literal (1 / 0)).toJson = none := by
  have hread : ofJson? choiceDocument = some choice := by rfl
  have hrep : choiceDocument.Representable := by decide +kernel
  have hback := readAs_toJson_iff.2 choiceDocument choice hrep hread
  exact ⟨hrep, hread, (readAs_toJson_iff.1 choice).1 hback, hback, by decide +kernel⟩

end Expr

end DesignTokens
