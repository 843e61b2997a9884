/-
The languages of concatenation, union and star.

Each operator adds edges that consume nothing to a graph in which its operands live in regions
of their own.  Nothing more is asked of the operands: edges may lead back to a start, edges may
leave accepting vertices, and accepting vertices may be out of reach.

* `Automaton.language_concatenate`, `language_union`, `language_star` — the operators on
  operands that are not inverted, as statements about the edges that are added;
* `Automaton.language_onlyEdge` — the automaton of one edge.
-/
import RegexAutomata.Proofs.Automaton.Edit
import RegexAutomata.Proofs.Automaton.Reach

open scoped Computability

namespace RegexAutomata

/-- The language of the smallest expressions. -/
def Atom.language : Atom → Language Symbol
  | .empty => 1
  | .one s => {[s]}
  | .any => {w | ∃ s, w = [s]}

theorem Atom.mem_language {a : Atom} {w : List Symbol} :
    w ∈ a.language ↔ (a = .empty ∧ w = []) ∨ ∃ s, w = [s] ∧ (a = .one s ∨ a = .any) := by
  cases a with
  | empty => simp [language]
  | one s =>
    simp only [language, reduceCtorEq, false_and, false_or, one.injEq, or_false]
    constructor
    · rintro rfl
      exact ⟨s, rfl, rfl⟩
    · rintro ⟨t, rfl, rfl⟩
      rfl
  | any =>
    simp only [language, reduceCtorEq, false_and, false_or, or_true, and_true]
    rfl

namespace Graph

variable {g : Graph} {a : Atom} {start final : Nat}

/-- One edge leaves the start, to the final vertex, which no edge leaves. -/
structure OnlyEdge (g : Graph) (start : Nat) (a : Atom) (final : Nat) : Prop where
  eps : ∀ v, v ∈ (g.node start).eps ↔ a = .empty ∧ v = final
  step : ∀ s v, v ∈ (g.node start).step s ↔ (a = .one s ∨ a = .any) ∧ v = final
  bare : g.Bare final

theorem onlyEdge_link (hs : start < g.size) (hf : final < g.size) (hne : start ≠ final)
    (hstart : g.Bare start) (hfinal : g.Bare final) :
    (g.link start a final).OnlyEdge start a final where
  eps := by
    intro v
    have hv := (hstart v).1
    rw [node_link a hf hs, if_pos rfl]
    cases a <;> simp [Node.link, hv]
  step := by
    intro s v
    have hv := (hstart v).2 s
    rw [Node.mem_step] at hv
    rw [node_link a hf hs, if_pos rfl, Node.mem_step]
    cases a <;> simp [Node.link] <;> tauto
  bare := by
    intro v
    rw [node_link a hf hs, if_neg hne.symm]
    exact hfinal v

theorem OnlyEdge.region (h : g.OnlyEdge start a final) :
    g.Region fun v => v = start ∨ v = final := by
  intro u hu v hv
  rcases Node.mem_targets_iff_step.1 hv with hv | ⟨s, hv⟩
  · rcases hu with rfl | rfl
    · exact .inr ((h.eps v).1 hv).2
    · exact absurd hv (h.bare v).1
  · rcases hu with rfl | rfl
    · exact .inr ((h.step s v).1 hv).2
    · exact absurd hv ((h.bare v).2 s)

end Graph

namespace Automaton

open RegexAutomata.Graph (Adds)

/-- An automaton that is not inverted and starts in a region. -/
structure Within (a : Automaton) (g : Graph) (F : Nat → Prop) : Prop where
  region : g.Region F
  start : F a.start
  upright : a.inverted = false

/-- None of the accepting vertices has a property. -/
def Avoids (a : Automaton) (F : Nat → Prop) : Prop := ∀ v ∈ a.accepting, ¬ F v

/-- A vertex that is neither in the region of an automaton nor accepting. -/
def Outside (a : Automaton) (F : Nat → Prop) (v : Nat) : Prop := ¬ F v ∧ v ∉ a.accepting

variable {g g' : Graph} {f s : Automaton} {F S : Nat → Prop}

theorem mem_language_plain {start : Nat} {accepting : VertexSet} {w : List Symbol} :
    w ∈ (plain start accepting).language g ↔ ∃ v ∈ accepting, g.Path start w v := by
  rw [mem_language]
  refine exists_congr fun v => ?_
  rw [final_of_not_inverted (a := plain start accepting) rfl, and_comm]
  rfl

theorem Within.mem_language (hf : f.Within g F) {w : List Symbol} :
    w ∈ f.language g ↔ ∃ v ∈ f.accepting, g.Path f.start w v := by
  rw [Automaton.mem_language]
  refine exists_congr fun v => ?_
  rw [final_of_not_inverted hf.upright, and_comm]

/-! ### Atoms -/

theorem language_onlyEdge {a : Atom} {start final : Nat} (h : g.OnlyEdge start a final)
    (hne : start ≠ final) : (plain start (.singleton final)).language g = a.language := by
  ext w
  rw [mem_language_plain, Atom.mem_language]
  constructor
  · rintro ⟨v, hv, hp⟩
    obtain rfl := VertexSet.mem_singleton.1 hv
    cases hp with
    | nil => exact absurd rfl hne
    | eps he hp =>
      obtain ⟨ha, rfl⟩ := (h.eps _).1 he
      exact .inl ⟨ha, (hp.of_bare h.bare).1⟩
    | @read _ _ _ s _ hr hp =>
      obtain ⟨ha, rfl⟩ := (h.step _ _).1 hr
      exact .inr ⟨s, by rw [(hp.of_bare h.bare).1], ha⟩
  · have hmem : final ∈ VertexSet.singleton final := VertexSet.mem_singleton.2 rfl
    rintro (⟨ha, rfl⟩ | ⟨s, rfl, ha⟩)
    · exact ⟨final, hmem, .eps ((h.eps _).2 ⟨ha, rfl⟩) (.nil _)⟩
    · exact ⟨final, hmem, .read ((h.step s _).2 ⟨ha, rfl⟩) (.nil _)⟩

/-! ### Concatenation -/

theorem language_concatenate (hf : f.Within g F) (hs : s.Within g S) (hfS : f.Avoids S)
    (hsF : s.Avoids F) (hE : g.Adds g' fun x y => x ∈ f.accepting ∧ y = s.start) :
    (plain f.start s.accepting).language g' = f.language g * s.language g := by
  ext w
  rw [mem_language_plain, Language.mem_mul]
  constructor
  · rintro ⟨v, hv, hp⟩
    rcases hp.escape hf.region hE hf.start with ⟨hF, _⟩ | ⟨x, t, y, z, rfl, _, hy, ⟨hx, rfl⟩, hz⟩
    · exact absurd hF (hsF v hv)
    · -- no edge that was added starts in the region of the second operand
      have hz : g.Path s.start z v :=
        hz.of_adds hs.region hE (fun x _ hx hxy => hfS x hxy.1 hx) hs.start
      exact ⟨y, hf.mem_language.2 ⟨x, hx, hy⟩, z, hs.mem_language.2 ⟨v, hv, hz⟩, rfl⟩
  · rintro ⟨y, hy, z, hz, rfl⟩
    obtain ⟨x, hx, hy⟩ := hf.mem_language.1 hy
    obtain ⟨v, hv, hz⟩ := hs.mem_language.1 hz
    have hlink : s.start ∈ (g'.node x).eps := (hE.eps x _).2 (.inr ⟨hx, rfl⟩)
    exact ⟨v, hv, (hy.adds hE).append (.eps hlink (hz.adds hE))⟩

/-! ### Union -/

section Union

variable {start final : Nat}

/-- The edges of a union. -/
def UnionEdge (f s : Automaton) (start final x y : Nat) : Prop :=
  (x = start ∧ (y = f.start ∨ y = s.start)) ∨
    ((x ∈ f.accepting ∨ x ∈ s.accepting) ∧ y = final)

/-- A path to the final vertex that starts in the region of an operand spells a member of the
operand's language: it leaves the region at an accepting vertex and ends there. -/
theorem Within.mem_of_union_path (hf : f.Within g F) (hsF : s.Avoids F)
    (hstart : f.Outside F start) (hfinal : f.Outside F final) (hbare : g'.Bare final)
    (hE : g.Adds g' (UnionEdge f s start final)) {w : List Symbol}
    (hp : g'.Path f.start w final) : w ∈ f.language g := by
  rcases hp.escape hf.region hE hf.start with ⟨hF, _⟩ | ⟨x, t, y, z, rfl, hx, hy, hxt, hz⟩
  · exact absurd hF hfinal.1
  · rcases hxt with ⟨rfl, _⟩ | ⟨hacc, rfl⟩
    · exact absurd hx hstart.1
    · rcases hacc with hacc | hacc
      · obtain ⟨rfl, _⟩ := hz.of_bare hbare
        rw [List.append_nil]
        exact hf.mem_language.2 ⟨x, hacc, hy⟩
      · exact absurd hx (hsF x hacc)

theorem UnionEdge.comm {x y : Nat} :
    UnionEdge f s start final x y ↔ UnionEdge s f start final x y := by
  unfold UnionEdge
  rw [or_comm (a := y = f.start), or_comm (a := x ∈ f.accepting)]

theorem language_union (hf : f.Within g F) (hs : s.Within g S) (hfS : f.Avoids S)
    (hsF : s.Avoids F) (hstart : g.Bare start) (hfinal : g.Bare final) (hne : start ≠ final)
    (hfstart : f.Outside F start) (hffinal : f.Outside F final)
    (hsstart : s.Outside S start) (hsfinal : s.Outside S final)
    (hE : g.Adds g' (UnionEdge f s start final)) :
    (plain start (.singleton final)).language g' = f.language g + s.language g := by
  have hbare : g'.Bare final := by
    refine hfinal.adds hE fun v hv => ?_
    rcases hv with ⟨h, _⟩ | ⟨h | h, _⟩
    · exact hne h.symm
    · exact hffinal.2 h
    · exact hsfinal.2 h
  ext w
  rw [mem_language_plain, Language.mem_add]
  constructor
  · rintro ⟨v, hv, hp⟩
    obtain rfl := VertexSet.mem_singleton.1 hv
    -- the start was bare, so the first edge of the path was added
    cases hp with
    | nil => exact absurd rfl hne
    | read hr _ =>
      rw [hE.step] at hr
      exact absurd hr ((hstart _).2 _)
    | eps he hp =>
      rcases (hE.eps _ _).1 he with he | ⟨_, rfl | rfl⟩ | ⟨h | h, _⟩
      · exact absurd he (hstart _).1
      · exact .inl (hf.mem_of_union_path hsF hfstart hffinal hbare hE hp)
      · exact .inr (hs.mem_of_union_path hfS hsstart hsfinal hbare
          (hE.congr fun _ _ => UnionEdge.comm) hp)
      · exact absurd h hfstart.2
      · exact absurd h hsstart.2
  · have hjoin : ∀ a : Automaton, (∀ x ∈ a.accepting, UnionEdge f s start final x final) →
        UnionEdge f s start final start a.start → ∀ v ∈ a.accepting, g.Path a.start w v →
          g'.Path start w final := by
      intro a hacc hlink v hv hp
      have hend : g'.Path v [] final := .eps ((hE.eps v _).2 (.inr (hacc v hv))) (.nil _)
      have hp : g'.Path a.start (w ++ []) final := (hp.adds hE).append hend
      rw [List.append_nil] at hp
      exact .eps ((hE.eps start _).2 (.inr hlink)) hp
    rintro (hw | hw)
    · obtain ⟨v, hv, hp⟩ := hf.mem_language.1 hw
      exact ⟨final, VertexSet.mem_singleton.2 rfl,
        hjoin f (fun x hx => .inr ⟨.inl hx, rfl⟩) (.inl ⟨rfl, .inl rfl⟩) v hv hp⟩
    · obtain ⟨v, hv, hp⟩ := hs.mem_language.1 hw
      exact ⟨final, VertexSet.mem_singleton.2 rfl,
        hjoin s (fun x hx => .inr ⟨.inr hx, rfl⟩) (.inl ⟨rfl, .inr rfl⟩) v hv hp⟩

end Union

/-! ### Star -/

section Star

theorem append_mem_kstar {L : Language Symbol} {y z : List Symbol} (hy : y ∈ L) (hz : z ∈ L∗) :
    y ++ z ∈ L∗ := by
  have hle : L * L∗ ≤ L∗ := mul_kstar_le_kstar
  exact hle (Language.append_mem_mul hy hz)

variable {start final : Nat}

/-- The edges of a star. -/
def StarEdge (f : Automaton) (start final x y : Nat) : Prop :=
  (x = start ∨ x ∈ f.accepting) ∧ (y = f.start ∨ y = final)

/-- A path to the final vertex that starts in the region of the operand finishes the word that
it is in, and goes on with further words.  By induction on the path. -/
theorem Within.exists_of_star_path (hf : f.Within g F) (hstart : f.Outside F start)
    (hfinal : f.Outside F final) (hbare : g'.Bare final)
    (hE : g.Adds g' (StarEdge f start final)) {u v : Nat} {w : List Symbol}
    (hp : g'.Path u w v) (hv : v = final) (hu : F u) :
    ∃ y z, w = y ++ z ∧ (∃ x ∈ f.accepting, g.Path u y x) ∧ z ∈ (f.language g)∗ := by
  induction hp with
  | nil v => exact absurd (hv ▸ hu) hfinal.1
  | @eps u v x w he hp ih =>
    -- the word that the path is in ends where an edge that was added is taken
    rcases (hE.eps u v).1 he with he | ⟨h | hacc, hend⟩
    · obtain ⟨y, z, rfl, ⟨t, ht, hy⟩, hz⟩ := ih hv (hf.region.of_eps hu he)
      exact ⟨y, z, rfl, ⟨t, ht, .eps he hy⟩, hz⟩
    · exact absurd (h ▸ hu) hstart.1
    · refine ⟨[], w, rfl, ⟨u, hacc, .nil u⟩, ?_⟩
      rcases hend with rfl | rfl
      · obtain ⟨y, z, rfl, hy, hz⟩ := ih hv hf.start
        exact append_mem_kstar (hf.mem_language.2 hy) hz
      · obtain ⟨rfl, _⟩ := hp.of_bare hbare
        exact Language.nil_mem_kstar _
  | @read u v x s w hr hp ih =>
    rw [hE.step] at hr
    obtain ⟨y, z, rfl, ⟨t, ht, hy⟩, hz⟩ := ih hv (hf.region.of_step hu hr)
    exact ⟨s :: y, z, rfl, ⟨t, ht, .read hr hy⟩, hz⟩

theorem language_star (hf : f.Within g F) (hstart : g.Bare start) (hfinal : g.Bare final)
    (hne : start ≠ final) (hfstart : f.Outside F start) (hffinal : f.Outside F final)
    (hE : g.Adds g' (StarEdge f start final)) :
    (plain start (.singleton final)).language g' = (f.language g)∗ := by
  have hbare : g'.Bare final := by
    refine hfinal.adds hE fun v hv => ?_
    rcases hv with ⟨h | h, _⟩
    · exact hne h.symm
    · exact hffinal.2 h
  have hlink : ∀ x, x = start ∨ x ∈ f.accepting →
      f.start ∈ (g'.node x).eps ∧ final ∈ (g'.node x).eps := by
    intro x hx
    exact ⟨(hE.eps x _).2 (.inr ⟨hx, .inl rfl⟩), (hE.eps x _).2 (.inr ⟨hx, .inr rfl⟩)⟩
  ext w
  rw [mem_language_plain]
  constructor
  · rintro ⟨v, hv, hp⟩
    obtain rfl := VertexSet.mem_singleton.1 hv
    cases hp with
    | nil => exact absurd rfl hne
    | read hr _ =>
      rw [hE.step] at hr
      exact absurd hr ((hstart _).2 _)
    | eps he hp =>
      rcases (hE.eps _ _).1 he with he | ⟨_, rfl | rfl⟩
      · exact absurd he (hstart _).1
      · obtain ⟨y, z, rfl, hy, hz⟩ :=
          hf.exists_of_star_path hfstart hffinal hbare hE hp rfl hf.start
        exact append_mem_kstar (hf.mem_language.2 hy) hz
      · obtain ⟨rfl, _⟩ := hp.of_bare hbare
        exact Language.nil_mem_kstar _
  · -- words are read one after the other, from the start or from an accepting vertex
    have hwords : ∀ ws : List (List Symbol), (∀ y ∈ ws, y ∈ f.language g) →
        ∀ x, x = start ∨ x ∈ f.accepting → g'.Path x ws.flatten final := by
      intro ws
      induction ws with
      | nil =>
        intro _ x hx
        exact .eps (hlink x hx).2 (.nil _)
      | cons y ws ih =>
        intro hws x hx
        obtain ⟨t, ht, hy⟩ := hf.mem_language.1 (hws y (.head _))
        rw [List.flatten_cons]
        have hrest := ih (fun z hz => hws z (.tail _ hz)) t (.inr ht)
        exact .eps (hlink x hx).1 ((hy.adds hE).append hrest)
    intro hw
    obtain ⟨ws, rfl, hws⟩ := Language.mem_kstar.1 hw
    exact ⟨final, VertexSet.mem_singleton.2 rfl, hwords ws hws start (.inl rfl)⟩

end Star

end Automaton

end RegexAutomata
