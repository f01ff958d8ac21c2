import DesignTokens.Proofs.Order.Closed
import Mathlib.Data.List.Nodup

/-!
# The identifiers of the nodes

* `tried base n` : the names that are tried for a node, in turn;
* `exists_freeName` : one of them is free, and the first such is taken;
* `nodup_identifiers`, `isIdentifier_identifierIn` : so the identifiers of the nodes differ and have the
  characters that a flowchart allows;
* `identifiers_eq` : the nodes in ascending order, each with its identifier.
-/

namespace DesignTokens.OrderGraph

variable {g : OrderGraph} {base name id x : String} {taken ids before after : List String} {n : Nat}

/-! ## A free name -/

/-- The names that are tried for a node, in turn. -/
def tried (base : String) : Nat → String
  | 0 => base
  | n + 1 => base ++ "_" ++ toString (n + 2)

theorem toString_injective : Function.Injective (toString : Nat → String) := by
  intro m n h
  have hdigits := congrArg (fun s => Nat.ofDigitChars 10 s.toList 0) h
  simpa [Nat.toString_eq_ofList_toDigits] using hdigits

theorem tried_injective (base : String) : Function.Injective (tried base) := by
  have hlonger (n : Nat) : base ≠ base ++ "_" ++ toString (n + 2) := by
    intro h
    have hlength := congrArg String.length h
    have hmark : "_".length = 1 := rfl
    rw [String.length_append, String.length_append, hmark] at hlength
    omega
  intro m n h
  cases m with
  | zero =>
    cases n with
    | zero => rfl
    | succ n => exact absurd h (hlonger n)
  | succ m =>
    cases n with
    | zero => exact absurd h.symm (hlonger m)
    | succ n =>
      have hnumber := toString_injective ((String.append_right_inj _).1 h)
      omega

theorem freeName_eq (taken : List String) (base : String) : freeName taken base =
    (((List.range (taken.length + 1)).map (tried base)).find? fun name => !taken.contains name).getD base := by
  rw [freeName, List.range_succ_eq_map, List.map_cons, List.map_map]
  rfl

/-- The search for a free name ends: of one name more than are taken, one is free. -/
theorem exists_freeName (taken : List String) (base : String) :
    ∃ n, freeName taken base = tried base n ∧ tried base n ∉ taken ∧ ∀ m < n, tried base m ∈ taken := by
  rw [freeName_eq, List.find?_map]
  cases hfind : (List.range (taken.length + 1)).find? ((fun name => !taken.contains name) ∘ tried base) with
  | some n =>
    obtain ⟨hfree, -, hbefore⟩ := List.find?_range_eq_some.1 hfind
    exact ⟨n, rfl, by simpa using hfree, fun m hm => by simpa using hbefore m hm⟩
  | none =>
    have htaken : (List.range (taken.length + 1)).map (tried base) ⊆ taken := by
      rw [List.find?_range_eq_none] at hfind
      intro name hname
      obtain ⟨m, hm, rfl⟩ := List.mem_map.1 hname
      simpa using hfind m (List.mem_range.1 hm)
    have hlength := (List.Nodup.map (tried_injective base) List.nodup_range).length_le_of_subset htaken
    rw [List.length_map, List.length_range] at hlength
    omega

theorem freeName_not_mem (taken : List String) (base : String) : freeName taken base ∉ taken := by
  obtain ⟨n, hname, hfree, -⟩ := exists_freeName taken base
  rw [hname]
  exact hfree

/-! ## All names -/

theorem nameAll_append (taken before after : List String) : nameAll taken (before ++ after) =
    nameAll taken before ++ nameAll (((nameAll taken before).map Prod.snd).reverse ++ taken) after := by
  induction before generalizing taken with
  | nil => rfl
  | cons id before ih => simp [nameAll, ih]

theorem nodup_nameAll (taken ids : List String) :
    ((nameAll taken ids).map Prod.snd).Nodup ∧ ∀ name ∈ (nameAll taken ids).map Prod.snd, name ∉ taken := by
  induction ids generalizing taken with
  | nil => simp [nameAll]
  | cons id ids ih =>
    obtain ⟨hnodup, hfree⟩ := ih (freeName taken (plainId id) :: taken)
    rw [nameAll, List.map_cons, List.nodup_cons, List.forall_mem_cons]
    refine ⟨⟨fun h => hfree _ h List.mem_cons_self, hnodup⟩, freeName_not_mem _ _, fun name hname h => ?_⟩
    exact hfree name hname (List.mem_cons_of_mem _ h)

theorem lookup_of_nodup {es : List (String × String)} (h : (es.map Prod.fst).Nodup) {e : String × String}
    (he : e ∈ es) : es.lookup e.1 = some e.2 := by
  obtain ⟨before, after, rfl⟩ := List.append_of_mem he
  refine List.lookup_eq_some_iff.2 ⟨before, after, rfl, fun d hd => ?_⟩
  rw [List.map_append, List.map_cons] at h
  have hne := (List.nodup_append.1 h).2.2 _ (List.mem_map_of_mem hd) _ List.mem_cons_self
  simpa using hne.symm

theorem identifiers_eq (g : OrderGraph) :
    g.identifiers = g.nodes.map fun x => (x, identifierIn g.identifiers x) := by
  have hnodup : (g.identifiers.map Prod.fst).Nodup := by
    rw [map_fst_identifiers]
    exact g.below.nodup_keys
  conv_lhs => rw [← List.map_id' g.identifiers]
  rw [← map_fst_identifiers, List.map_map]
  refine List.map_congr_left fun e he => ?_
  rw [Function.comp_apply, identifierIn, lookup_of_nodup hnodup he, Option.getD_some]

theorem nodup_identifiers (g : OrderGraph) : (g.nodes.map (identifierIn g.identifiers)).Nodup := by
  have hnames : g.nodes.map (identifierIn g.identifiers) = g.identifiers.map Prod.snd := by
    conv_rhs => rw [identifiers_eq, List.map_map]
    rfl
  rw [hnames]
  exact (nodup_nameAll [] g.nodes).1

/-- The identifier of a node is the first name tried for it that no node before it has. -/
theorem exists_identifierIn (h : g.nodes = before ++ x :: after) :
    ∃ n, identifierIn g.identifiers x = tried (plainId x) n ∧
      tried (plainId x) n ∉ before.map (identifierIn g.identifiers) ∧
      ∀ m < n, tried (plainId x) m ∈ before.map (identifierIn g.identifiers) := by
  have hnamed : nameAll [] (before ++ x :: after) =
      (before ++ x :: after).map fun y => (y, identifierIn g.identifiers y) := by
    rw [← h]
    exact identifiers_eq g
  have hlength : (nameAll [] before).length = (before.map fun y => (y, identifierIn g.identifiers y)).length := by
    rw [List.length_map, ← List.length_map (f := Prod.fst), map_fst_nameAll]
  rw [nameAll_append, List.map_append] at hnamed
  obtain ⟨hbefore, hx⟩ := List.append_inj hnamed hlength
  obtain ⟨hhere, -⟩ := List.cons.inj hx
  have hname := (Prod.mk.inj hhere).2
  rw [hbefore, List.map_map, List.append_nil] at hname
  obtain ⟨n, htried, hfree, htaken⟩ := exists_freeName ((before.map fun y => identifierIn g.identifiers y).reverse)
    (plainId x)
  exact ⟨n, hname.symm.trans htried, by simpa using hfree, fun m hm => by simpa using htaken m hm⟩

/-! ## The characters of a name -/

/-- The name starts with `n_`, and has only ASCII letters, digits and underscores. -/
def IsIdentifier (name : String) : Prop :=
  ['n', '_'] <+: name.toList ∧ ∀ c ∈ name.toList, c.isAlphanum = true ∨ c = '_'

theorem isIdentifier_plainId (id : String) : IsIdentifier (plainId id) := by
  have hchars : (plainId id).toList =
      ['n', '_'] ++ id.toList.map fun c => if c.isAlphanum || c == '_' then c else '_' := by simp [plainId]
  have hstart : ∀ c ∈ ['n', '_'], c.isAlphanum = true ∨ c = '_' :=
    List.forall_mem_cons.2 ⟨.inl rfl, List.forall_mem_singleton.2 (.inr rfl)⟩
  rw [IsIdentifier, hchars]
  refine ⟨List.prefix_append _ _, List.forall_mem_append.2 ⟨hstart, fun c hc => ?_⟩⟩
  obtain ⟨d, -, rfl⟩ := List.mem_map.1 hc
  split
  · rename_i hd
    simpa using hd
  · exact .inr rfl

theorem IsIdentifier.tried (h : IsIdentifier base) (n : Nat) : IsIdentifier (tried base n) := by
  cases n with
  | zero => exact h
  | succ n =>
    have hchars : (OrderGraph.tried base (n + 1)).toList = base.toList ++ '_' :: Nat.toDigits 10 (n + 2) := by
      simp [OrderGraph.tried]
    rw [IsIdentifier, hchars]
    refine ⟨h.1.trans (List.prefix_append _ _), List.forall_mem_append.2 ⟨h.2, List.forall_mem_cons.2 ⟨.inr rfl, ?_⟩⟩⟩
    intro c hc
    have hdigit := Nat.isDigit_of_mem_toDigits (by decide) (by decide) hc
    exact .inl (by simp [Char.isAlphanum, hdigit])

theorem isIdentifier_identifierIn (h : x ∈ g.nodes) : IsIdentifier (identifierIn g.identifiers x) := by
  obtain ⟨before, after, hnodes⟩ := List.append_of_mem h
  obtain ⟨n, hname, -⟩ := exists_identifierIn hnodes
  rw [hname]
  exact (isIdentifier_plainId x).tried n

end DesignTokens.OrderGraph
