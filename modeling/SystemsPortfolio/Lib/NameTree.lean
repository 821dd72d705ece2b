/-
SystemsPortfolio/Lib/NameTree.lean

Name spaces: nodes, some of which are directories, and named entries that sit
at positions of a directory and lead to a node.

* `Space.Sound` — entries sit in directories, lead to nodes other than the
  root, no node is the target of two entries, and no directory uses a name
  twice;
* `Space.Rooted` — moreover every node but the root has an entry, and going up
  from any node leads to the root: the name space is a tree.

There are four elementary changes: adding and removing a node, adding and
removing an entry.  Each keeps `Sound` under the obvious condition.  `Rooted` is
kept by the two compound changes that create a named leaf and delete one.

`Space.Walk` follows names from the root.  In a sound space lists of names and the
nodes they lead to determine one another, creating or deleting a leaf opens no new way
to an old node, and the way to a leaf goes with it.
-/
import Mathlib.Data.Set.Insert
import Mathlib.Logic.Relation

namespace NameTree

/-- A name space over nodes `ν`, positions `κ` within a directory, and names `α`. -/
structure Space (ν κ α : Type*) where
  node : ν → Prop
  dir : ν → Prop
  entry : ν → κ → α → ν → Prop

namespace Space

variable {ν κ α : Type*} {root p q c i : ν} {k l : κ} {a b : α} {isDir : Prop}
variable {T : Space ν κ α}

@[ext] theorem ext' {T U : Space ν κ α} (hn : ∀ c, T.node c ↔ U.node c)
    (hd : ∀ c, T.dir c ↔ U.dir c) (he : ∀ p k a c, T.entry p k a c ↔ U.entry p k a c) : T = U := by
  cases T
  cases U
  congr
  · exact funext fun c => propext (hn c)
  · exact funext fun c => propext (hd c)
  · exact funext fun p => funext fun k => funext fun a => funext fun c => propext (he p k a c)

/-! ### The elementary changes -/

/-- Add the node `i`. -/
def addNode (T : Space ν κ α) (i : ν) (isDir : Prop) : Space ν κ α where
  node c := c = i ∨ T.node c
  dir c := c = i ∧ isDir ∨ T.dir c
  entry := T.entry

/-- Add the entry `a ↦ i` at position `k` of `p`. -/
def addEntry (T : Space ν κ α) (p : ν) (k : κ) (a : α) (i : ν) : Space ν κ α where
  node := T.node
  dir := T.dir
  entry q l b c := (q = p ∧ l = k ∧ b = a ∧ c = i) ∨ T.entry q l b c

/-- Remove the entry at position `k` of `p`. -/
def removeEntry (T : Space ν κ α) (p : ν) (k : κ) : Space ν κ α where
  node := T.node
  dir := T.dir
  entry q l b c := T.entry q l b c ∧ ¬ (q = p ∧ l = k)

/-- Remove the node `i` with the entries in it. -/
def removeNode (T : Space ν κ α) (i : ν) : Space ν κ α where
  node c := T.node c ∧ c ≠ i
  dir c := T.dir c ∧ c ≠ i
  entry q l b c := T.entry q l b c ∧ q ≠ i

/-! ### Soundness -/

/-- Entries sit in directories and lead to nodes, each node from one place and
each name in a directory once. -/
structure Sound (root : ν) (T : Space ν κ α) : Prop where
  root_dir : T.dir root
  dir_node : ∀ {c}, T.dir c → T.node c
  entry_dir : ∀ {p k a c}, T.entry p k a c → T.dir p
  target : ∀ {p k a c}, T.entry p k a c → T.node c ∧ c ≠ root
  irrefl : ∀ {p k a c}, T.entry p k a c → c ≠ p
  single : ∀ {p k a q l b c}, T.entry p k a c → T.entry q l b c → p = q ∧ k = l
  names : ∀ {p k l a c e}, T.entry p k a c → T.entry p l a e → k = l
  place : ∀ {p k a b c e}, T.entry p k a c → T.entry p k b e → c = e

theorem Sound.addNode (h : T.Sound root) : (T.addNode i isDir).Sound root where
  root_dir := Or.inr h.root_dir
  dir_node := by
    rintro c (⟨rfl, -⟩ | hc)
    · exact Or.inl rfl
    · exact Or.inr (h.dir_node hc)
  entry_dir he := Or.inr (h.entry_dir he)
  target he := ⟨Or.inr (h.target he).1, (h.target he).2⟩
  irrefl he := h.irrefl he
  single he he' := h.single he he'
  names he he' := h.names he he'
  place he he' := h.place he he'

theorem Sound.addEntry (h : T.Sound root) (hp : T.dir p) (hi : T.node i) (hroot : i ≠ root)
    (hip : i ≠ p) (hfree : ∀ q l b, ¬ T.entry q l b i) (hname : ∀ l c, ¬ T.entry p l a c)
    (hplace : ∀ b c, ¬ T.entry p k b c) : (T.addEntry p k a i).Sound root where
  root_dir := h.root_dir
  dir_node := h.dir_node
  entry_dir := by
    rintro q l b c (⟨rfl, rfl, rfl, rfl⟩ | he)
    · exact hp
    · exact h.entry_dir he
  target := by
    rintro q l b c (⟨rfl, rfl, rfl, rfl⟩ | he)
    · exact ⟨hi, hroot⟩
    · exact h.target he
  irrefl := by
    rintro q l b c (⟨rfl, rfl, rfl, rfl⟩ | he)
    · exact hip
    · exact h.irrefl he
  single := by
    rintro q l b q' l' b' c (⟨rfl, rfl, rfl, rfl⟩ | he) (⟨rfl, rfl, rfl, hc⟩ | he')
    · exact ⟨rfl, rfl⟩
    · exact absurd he' (hfree _ _ _)
    · subst hc
      exact absurd he (hfree _ _ _)
    · exact h.single he he'
  names := by
    rintro q l l' b c c' (⟨rfl, rfl, rfl, rfl⟩ | he) (⟨hq, rfl, hb, rfl⟩ | he')
    · rfl
    · exact absurd he' (hname _ _)
    · subst hq hb
      exact absurd he (hname _ _)
    · exact h.names he he'
  place := by
    rintro q l b b' c c' (⟨rfl, rfl, rfl, rfl⟩ | he) (⟨hq, hl, rfl, rfl⟩ | he')
    · rfl
    · exact absurd he' (hplace _ _)
    · subst hq hl
      exact absurd he (hplace _ _)
    · exact h.place he he'

theorem Sound.removeEntry (h : T.Sound root) : (T.removeEntry p k).Sound root where
  root_dir := h.root_dir
  dir_node := h.dir_node
  entry_dir he := h.entry_dir he.1
  target he := h.target he.1
  irrefl he := h.irrefl he.1
  single he he' := h.single he.1 he'.1
  names he he' := h.names he.1 he'.1
  place he he' := h.place he.1 he'.1

theorem Sound.removeNode (h : T.Sound root) (hroot : i ≠ root)
    (hfree : ∀ q l b, ¬ T.entry q l b i) : (T.removeNode i).Sound root where
  root_dir := ⟨h.root_dir, hroot.symm⟩
  dir_node hc := ⟨h.dir_node hc.1, hc.2⟩
  entry_dir he := ⟨h.entry_dir he.1, he.2⟩
  target := by
    rintro q l b c ⟨he, -⟩
    refine ⟨⟨(h.target he).1, ?_⟩, (h.target he).2⟩
    rintro rfl
    exact hfree _ _ _ he
  irrefl he := h.irrefl he.1
  single he he' := h.single he.1 he'.1
  names he he' := h.names he.1 he'.1
  place he he' := h.place he.1 he'.1

/-! ### Rootedness -/

/-- `p` contains `c`. -/
def Parent (T : Space ν κ α) (c p : ν) : Prop := ∃ k a, T.entry p k a c

/-- The name space is a tree. -/
structure Rooted (root : ν) (T : Space ν κ α) : Prop extends T.Sound root where
  named : ∀ {c}, T.node c → c ≠ root → ∃ p, T.Parent c p
  reach : ∀ {c}, T.node c → Relation.ReflTransGen T.Parent c root

/-- Creating a leaf: a new node and its entry. -/
theorem Rooted.create (h : T.Rooted root) (hp : T.dir p) (hi : ¬ T.node i)
    (hname : ∀ l c, ¬ T.entry p l a c) (hplace : ∀ b c, ¬ T.entry p k b c) :
    ((T.addNode i isDir).addEntry p k a i).Rooted root := by
  have hfree : ∀ q l b, ¬ T.entry q l b i := fun q l b he => hi (h.target he).1
  have hroot : i ≠ root := fun e => hi (e ▸ h.dir_node h.root_dir)
  have hip : i ≠ p := fun e => hi (e ▸ h.dir_node hp)
  have hup : ∀ {c q}, T.Parent c q → ((T.addNode i isDir).addEntry p k a i).Parent c q :=
    fun ⟨l, b, he⟩ => ⟨l, b, Or.inr he⟩
  have hstep : ((T.addNode i isDir).addEntry p k a i).Parent i p :=
    ⟨k, a, Or.inl ⟨rfl, rfl, rfl, rfl⟩⟩
  refine ⟨h.addNode.addEntry (Or.inr hp) (Or.inl rfl) hroot hip hfree hname hplace, ?_, ?_⟩
  · rintro c (rfl | hc) hne
    · exact ⟨p, hstep⟩
    · obtain ⟨q, hq⟩ := h.named hc hne
      exact ⟨q, hup hq⟩
  · have hold : ∀ {c}, T.node c →
        Relation.ReflTransGen ((T.addNode i isDir).addEntry p k a i).Parent c root :=
      fun hc => Relation.ReflTransGen.mono (fun _ _ => hup) _ _ (h.reach hc)
    rintro c (rfl | hc)
    · exact Relation.ReflTransGen.head hstep (hold (h.dir_node hp))
    · exact hold hc

/-- Deleting a leaf: its entry and the node. -/
theorem Rooted.delete (h : T.Rooted root) (he : T.entry p k a i)
    (hleaf : ∀ l b c, ¬ T.entry i l b c) : ((T.removeEntry p k).removeNode i).Rooted root := by
  have hroot : i ≠ root := (h.target he).2
  have hfree : ∀ q l b, ¬ (T.removeEntry p k).entry q l b i := by
    rintro q l b ⟨he', hne⟩
    exact hne (h.single he' he)
  -- an entry that leads to another node survives: it is not the one removed,
  -- and it does not sit in the leaf
  have hup : ∀ {c q}, c ≠ i → T.Parent c q → ((T.removeEntry p k).removeNode i).Parent c q := by
    rintro c q hc ⟨l, b, hl⟩
    refine ⟨l, b, ⟨hl, ?_⟩, ?_⟩
    · rintro ⟨rfl, rfl⟩
      exact hc (h.place hl he)
    · rintro rfl
      exact hleaf _ _ _ hl
  refine ⟨h.removeEntry.removeNode hroot hfree, ?_, ?_⟩
  · rintro c ⟨hc, hne⟩ hcr
    obtain ⟨q, hq⟩ := h.named hc hcr
    exact ⟨q, hup hne hq⟩
  · rintro c ⟨hc, hne⟩
    have hpath := h.reach hc
    induction hpath using Relation.ReflTransGen.head_induction_on with
    | refl => exact Relation.ReflTransGen.refl
    | head hcq _ ih =>
        obtain ⟨l, b, hl⟩ := hcq
        refine Relation.ReflTransGen.head (hup hne ⟨l, b, hl⟩)
          (ih (h.dir_node (h.entry_dir hl)) ?_)
        rintro rfl
        exact hleaf _ _ _ hl

/-! ### Walks -/

/-- The names lead from the root to a node. -/
inductive Walk (T : Space ν κ α) (root : ν) : List α → ν → Prop
  | here : T.Walk root [] root
  | step {as : List α} {p c : ν} {k : κ} {a : α} (h : T.Walk root as p) (he : T.entry p k a c) :
      T.Walk root (as ++ [a]) c

/-- Where a place has one name only, a node is reached by one list of names only. -/
theorem Sound.walk_unique (h : T.Sound root)
    (hname : ∀ {p k a b c}, T.entry p k a c → T.entry p k b c → a = b) {as bs : List α}
    (ha : T.Walk root as c) (hb : T.Walk root bs c) : as = bs := by
  induction ha generalizing bs with
  | here =>
      cases hb with
      | here => rfl
      | step _ he => exact absurd rfl (h.target he).2
  | @step as p c k a _ he ih =>
      cases hb with
      | here => exact absurd rfl (h.target he).2
      | step hb' he' =>
          obtain ⟨rfl, rfl⟩ := h.single he he'
          rw [ih hb', hname he he']

theorem Walk.mono {U : Space ν κ α} (hTU : ∀ p k a c, T.entry p k a c → U.entry p k a c)
    {as : List α} (hw : T.Walk root as c) : U.Walk root as c := by
  induction hw with
  | here => exact .here
  | step _ he ih => exact ih.step (hTU _ _ _ _ he)

/-- A new leaf is on no way to an old node. -/
theorem Sound.walk_create (h : T.Sound root) (hi : ¬ T.node i) {as : List α}
    (hw : ((T.addNode i isDir).addEntry p k a i).Walk root as c) (hc : c ≠ i) :
    T.Walk root as c := by
  induction hw with
  | here => exact .here
  | step _ he ih =>
      rcases he with ⟨-, -, -, rfl⟩ | he
      · exact absurd rfl hc
      · refine (ih fun e => ?_).step he
        subst e
        exact hi (h.dir_node (h.entry_dir he))

/-- A list of names leads to one node at most. -/
theorem Sound.walk_target (h : T.Sound root) {as bs : List α} (ha : T.Walk root as c)
    (hb : T.Walk root bs i) (hab : as = bs) : c = i := by
  induction ha generalizing bs i with
  | here =>
      cases hb with
      | here => rfl
      | step _ _ => simp at hab
  | step _ he ih =>
      cases hb with
      | here => simp at hab
      | step hb' he' =>
          obtain ⟨hnames, hlast⟩ := List.append_inj' hab rfl
          obtain rfl := ih hb' hnames
          obtain rfl := List.singleton_inj.mp hlast
          obtain rfl := h.names he he'
          exact h.place he he'

/-- The way to a leaf goes with it. -/
theorem Sound.walk_remove (h : T.Sound root) (he : T.entry p k a i) {as : List α}
    (hi : T.Walk root as i) : ¬ ((T.removeEntry p k).removeNode i).Walk root as c := by
  intro hw
  have hold : T.Walk root as c :=
    Walk.mono (T := (T.removeEntry p k).removeNode i) (fun _ _ _ _ he' => he'.1.1) hw
  obtain rfl := h.walk_target hold hi rfl
  cases hw with
  | here => exact (h.target he).2 rfl
  | step _ he' => exact he'.1.2 (h.single he'.1.1 he)

/-! ### Directories within a directory -/

/-- The directories that `p` contains. -/
def childDirs (T : Space ν κ α) (p : ν) : Set ν := {c | T.dir c ∧ T.Parent c p}

theorem Sound.childDirs_create (h : T.Sound root) (hi : ¬ T.node i) :
    ((T.addNode i isDir).addEntry p k a i).childDirs q =
      {c | c = i ∧ isDir ∧ q = p} ∪ T.childDirs q := by
  have hfree : ∀ q l b, ¬ T.entry q l b i := fun q l b he => hi (h.target he).1
  ext c
  constructor
  · rintro ⟨⟨rfl, hd⟩ | hd, l, b, ⟨rfl, rfl, rfl, hci⟩ | he⟩
    · exact Or.inl ⟨rfl, hd, rfl⟩
    · exact absurd he (hfree _ _ _)
    · subst hci
      exact absurd (h.dir_node hd) hi
    · exact Or.inr ⟨hd, l, b, he⟩
  · rintro (⟨rfl, hd, rfl⟩ | ⟨hd, l, b, he⟩)
    · exact ⟨Or.inl ⟨rfl, hd⟩, k, a, Or.inl ⟨rfl, rfl, rfl, rfl⟩⟩
    · exact ⟨Or.inr hd, l, b, Or.inr he⟩

theorem Sound.childDirs_delete (h : T.Sound root) (he : T.entry p k a i) (hq : q ≠ i) :
    ((T.removeEntry p k).removeNode i).childDirs q = T.childDirs q \ {i} := by
  ext c
  constructor
  · rintro ⟨⟨hd, hc⟩, l, b, ⟨hl, -⟩, -⟩
    exact ⟨⟨hd, l, b, hl⟩, hc⟩
  · rintro ⟨⟨hd, l, b, hl⟩, hc⟩
    refine ⟨⟨hd, hc⟩, l, b, ⟨hl, ?_⟩, hq⟩
    rintro ⟨rfl, rfl⟩
    exact hc (h.place hl he)

end Space

end NameTree
