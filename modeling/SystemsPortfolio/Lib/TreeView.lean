/-
SystemsPortfolio/Lib/TreeView.lean

A name space seen from outside: what is at the end of each list of names.

`Space.view` forgets the nodes of a `NameTree.Space` and the positions of its
entries, and keeps one label for each list of names that leads somewhere.  The two
compound changes of a name space are updates of the view at one list of names:

* creating a named leaf puts the label of the leaf there (`view_create`);
* deleting a leaf takes it away (`view_delete`).

`find` follows a list of names through a view as a file system does: it reports
whether a name is missing or something that is not a directory is in the way.
-/
import SystemsPortfolio.Lib.NameTree
import Mathlib.Logic.Function.Basic

namespace NameTree

variable {ν κ α β ε : Type*}

namespace Space

variable {root p i c : ν} {k : κ} {a : α} {isDir : Prop} {T U : Space ν κ α} {as bs : List α}
variable {label label' : ν → β}

/-! ### The view -/

open Classical in
/-- The label of what a list of names leads to. -/
noncomputable def view (T : Space ν κ α) (root : ν) (label : ν → β) (as : List α) : Option β :=
  if h : ∃ c, T.Walk root as c then some (label h.choose) else none

theorem Sound.view_of_walk (h : T.Sound root) (hw : T.Walk root as c) :
    T.view root label as = some (label c) := by
  have hex : ∃ c, T.Walk root as c := ⟨c, hw⟩
  rw [view, dif_pos hex, h.walk_target hex.choose_spec hw rfl]

theorem Sound.view_eq_some (h : T.Sound root) {b : β} :
    T.view root label as = some b ↔ ∃ c, T.Walk root as c ∧ label c = b := by
  constructor
  · intro hb
    by_cases hex : ∃ c, T.Walk root as c
    · obtain ⟨c, hw⟩ := hex
      rw [h.view_of_walk hw] at hb
      exact ⟨c, hw, Option.some.inj hb⟩
    · rw [view, dif_neg hex] at hb
      cases hb
  · rintro ⟨c, hw, rfl⟩
    exact h.view_of_walk hw

theorem view_eq_none : T.view root label as = none ↔ ∀ c, ¬ T.Walk root as c := by
  constructor
  · intro hb c hw
    rw [view, dif_pos ⟨c, hw⟩] at hb
    cases hb
  · intro hno
    rw [view, dif_neg fun ⟨c, hw⟩ => hno c hw]

/-- Walks lead to nodes. -/
theorem Sound.node_of_walk (h : T.Sound root) (hw : T.Walk root as c) : T.node c := by
  cases hw with
  | here => exact h.dir_node h.root_dir
  | step _ he => exact (h.target he).1

/-- Only the labels of nodes matter. -/
theorem Sound.view_congr (h : T.Sound root) (hl : ∀ c, T.node c → label' c = label c) :
    T.view root label' = T.view root label := by
  funext as
  by_cases hex : ∃ c, T.Walk root as c
  · obtain ⟨c, hw⟩ := hex
    rw [h.view_of_walk hw, h.view_of_walk hw, hl c (h.node_of_walk hw)]
  · have hno : ∀ c, ¬ T.Walk root as c := fun c hw => hex ⟨c, hw⟩
    rw [view_eq_none.mpr hno, view_eq_none.mpr hno]

/-- One more name leads on exactly from a directory with an entry of that name. -/
theorem walk_snoc : T.Walk root (as ++ [a]) c ↔ ∃ p k, T.Walk root as p ∧ T.entry p k a c := by
  constructor
  · intro hw
    generalize e : as ++ [a] = bs at hw
    cases hw with
    | here => simp at e
    | @step as' p _ k a' hw he =>
        obtain ⟨rfl, ha⟩ := List.append_inj' e rfl
        obtain rfl := List.singleton_inj.mp ha
        exact ⟨p, k, hw, he⟩
  · rintro ⟨p, k, hw, he⟩
    exact hw.step he

/-- In a tree some names lead to every node. -/
theorem Rooted.exists_walk (h : T.Rooted root) (hc : T.node c) : ∃ as, T.Walk root as c := by
  have hup := h.reach hc
  clear hc
  induction hup using Relation.ReflTransGen.head_induction_on with
  | refl => exact ⟨[], .here⟩
  | head hcp _ ih =>
      obtain ⟨k, a, he⟩ := hcp
      obtain ⟨as, hw⟩ := ih
      exact ⟨as ++ [a], hw.step he⟩

/-! ### Changes of the name space -/

/-- No place has two names. -/
def NamesAtPlaces (T : Space ν κ α) : Prop :=
  ∀ {p k a b c}, T.entry p k a c → T.entry p k b c → a = b

/-- Giving one node another label. -/
theorem Sound.view_relabel [DecidableEq α] (h : T.Sound root) (hn : T.NamesAtPlaces)
    (hw : T.Walk root as i) (hl : ∀ c, T.node c → c ≠ i → label' c = label c) :
    T.view root label' = Function.update (T.view root label) as (some (label' i)) := by
  funext bs
  by_cases hbs : bs = as
  · subst hbs
    rw [Function.update_self, h.view_of_walk hw]
  rw [Function.update_of_ne hbs]
  by_cases hex : ∃ c, T.Walk root bs c
  · obtain ⟨c, hc⟩ := hex
    have hci : c ≠ i := by
      rintro rfl
      exact hbs (h.walk_unique hn hc hw)
    rw [h.view_of_walk hc, h.view_of_walk hc, hl c (h.node_of_walk hc) hci]
  · have hno : ∀ c, ¬ T.Walk root bs c := fun c hc => hex ⟨c, hc⟩
    rw [view_eq_none.mpr hno, view_eq_none.mpr hno]

/-- The walks after a leaf has been created: the old ones, and the one to the leaf. -/
theorem Sound.walk_create_iff (h : T.Sound root) (hn : T.NamesAtPlaces) (hi : ¬ T.node i)
    (hp : T.Walk root as p) :
    ((T.addNode i isDir).addEntry p k a i).Walk root bs c ↔
      T.Walk root bs c ∨ (bs = as ++ [a] ∧ c = i) := by
  have hup {bs : List α} {c : ν} (hw : T.Walk root bs c) :
      ((T.addNode i isDir).addEntry p k a i).Walk root bs c :=
    hw.mono fun _ _ _ _ he => Or.inr he
  constructor
  · intro hw
    by_cases hci : c = i
    · subst hci
      cases hw with
      | here => exact absurd (h.dir_node h.root_dir) hi
      | @step bs q _ l b hw he =>
          rcases he with ⟨rfl, -, rfl, -⟩ | he
          · -- the parent is an old node, and there is one way to it
            have hq := h.walk_create hi hw fun e => hi (e ▸ h.node_of_walk hp)
            rw [h.walk_unique hn hq hp]
            exact Or.inr ⟨rfl, rfl⟩
          · exact absurd (h.target he).1 hi
    · exact Or.inl (h.walk_create hi hw hci)
  · rintro (hw | ⟨rfl, rfl⟩)
    · exact hup hw
    · exact (hup hp).step (Or.inl ⟨rfl, rfl, rfl, rfl⟩)

theorem Sound.view_create [DecidableEq α] (h : T.Sound root) (hn : T.NamesAtPlaces)
    (hi : ¬ T.node i) (hp : T.Walk root as p)
    (hU : U = (T.addNode i isDir).addEntry p k a i) (hUs : U.Sound root)
    (hl : ∀ c, T.node c → label' c = label c) :
    U.view root label' = Function.update (T.view root label) (as ++ [a]) (some (label' i)) := by
  funext bs
  have hiff {c : ν} : U.Walk root bs c ↔ T.Walk root bs c ∨ (bs = as ++ [a] ∧ c = i) := by
    rw [hU]
    exact h.walk_create_iff hn hi hp
  by_cases hbs : bs = as ++ [a]
  · rw [hbs, Function.update_self, ← hbs]
    exact hUs.view_of_walk (hiff.mpr (Or.inr ⟨hbs, rfl⟩))
  rw [Function.update_of_ne hbs]
  by_cases hex : ∃ c, T.Walk root bs c
  · obtain ⟨c, hc⟩ := hex
    rw [hUs.view_of_walk (hiff.mpr (Or.inl hc)), h.view_of_walk hc, hl c (h.node_of_walk hc)]
  · have hno : ∀ c, ¬ T.Walk root bs c := fun c hc => hex ⟨c, hc⟩
    rw [view_eq_none.mpr hno, view_eq_none]
    exact fun c hc => (hiff.mp hc).elim (hno c) fun h => hbs h.1

/-- The walks after a leaf has been deleted: those that do not lead to it. -/
theorem Sound.walk_delete_iff (h : T.Sound root) (he : T.entry p k a i)
    (hleaf : ∀ l b c, ¬ T.entry i l b c) :
    ((T.removeEntry p k).removeNode i).Walk root bs c ↔ T.Walk root bs c ∧ c ≠ i := by
  constructor
  · intro hw
    have hold : T.Walk root bs c :=
      Walk.mono (T := (T.removeEntry p k).removeNode i) (fun _ _ _ _ he' => he'.1.1) hw
    refine ⟨hold, ?_⟩
    rintro rfl
    cases hw with
    | here => exact (h.target he).2 rfl
    | step _ he' => exact he'.1.2 (h.single he'.1.1 he)
  · rintro ⟨hw, hc⟩
    induction hw with
    | here => exact .here
    | @step bs q c l b _ hl ih =>
        have hqi : q ≠ i := by
          rintro rfl
          exact hleaf _ _ _ hl
        refine (ih hqi).step ⟨⟨hl, ?_⟩, hqi⟩
        rintro ⟨rfl, rfl⟩
        exact hc (h.place hl he)

theorem Sound.view_delete [DecidableEq α] (h : T.Sound root) (hn : T.NamesAtPlaces)
    (he : T.entry p k a i) (hleaf : ∀ l b c, ¬ T.entry i l b c) (hp : T.Walk root as p)
    (hU : U = (T.removeEntry p k).removeNode i) (hUs : U.Sound root)
    (hl : ∀ c, T.node c → c ≠ i → label' c = label c) :
    U.view root label' = Function.update (T.view root label) (as ++ [a]) none := by
  funext bs
  have hiff {c : ν} : U.Walk root bs c ↔ T.Walk root bs c ∧ c ≠ i := by
    rw [hU]
    exact h.walk_delete_iff he hleaf
  have hwi : T.Walk root (as ++ [a]) i := hp.step he
  by_cases hbs : bs = as ++ [a]
  · rw [hbs, Function.update_self, ← hbs, view_eq_none]
    intro c hc
    obtain ⟨hw, hci⟩ := hiff.mp hc
    exact hci (h.walk_target hw hwi hbs)
  rw [Function.update_of_ne hbs]
  by_cases hex : ∃ c, T.Walk root bs c
  · obtain ⟨c, hc⟩ := hex
    have hci : c ≠ i := by
      rintro rfl
      exact hbs (h.walk_unique hn hc hwi)
    rw [hUs.view_of_walk (hiff.mpr ⟨hc, hci⟩), h.view_of_walk hc, hl c (h.node_of_walk hc) hci]
  · have hno : ∀ c, ¬ T.Walk root bs c := fun c hc => hex ⟨c, hc⟩
    rw [view_eq_none.mpr hno, view_eq_none]
    exact fun c hc => hno c (hiff.mp hc).1

end Space

/-! ### Looking names up -/

section find

variable (dir : β → Bool) (missing notDir : ε) (t : List α → Option β)

/-- Follow `names` from what is at `pre`. -/
def findFrom (pre : List α) (b : β) : List α → Except ε β
  | [] => .ok b
  | a :: names =>
      if dir b then
        match t (pre ++ [a]) with
        | none => .error missing
        | some c => findFrom (pre ++ [a]) c names
      else .error notDir

/-- Follow `names` from the root. -/
def find (names : List α) : Except ε β :=
  match t [] with
  | none => .error missing
  | some b => findFrom dir missing notDir t [] b names

end find

end NameTree
