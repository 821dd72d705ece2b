/-
SystemsPortfolio/Lib/Escapes.lean

Taking escape sequences out of a text in one pass.

An escape sequence starts with two given symbols and goes on up to and including the
first occurrence of a third one.  The pass keeps everything else; a sequence that is not
ended swallows the rest of the text.  Taking a sequence out may bring the two first
symbols together that were apart before, so one pass need not be enough.  `Rejoins` says
of the text when this happens, and `opening_strip_iff` that nothing else leaves the two
symbols together.  `Bare` says when nothing but copies of one symbol is left.
-/
import Mathlib.Data.List.Infix

namespace Escapes

variable {α : Type*}

/-- The symbols of escape sequences. -/
structure Marks (α : Type*) where
  esc : α
  opn : α
  fin : α
  esc_ne_opn : esc ≠ opn
  esc_ne_fin : esc ≠ fin
  opn_ne_fin : opn ≠ fin

/-- The two symbols that start a sequence stand next to each other somewhere. -/
def Opening (m : Marks α) (t : List α) : Prop := [m.esc, m.opn] <:+: t

instance [DecidableEq α] (m : Marks α) (t : List α) : Decidable (Opening m t) :=
  inferInstanceAs (Decidable (_ <:+: _))

/-- One escape sequence. -/
def IsEscape (m : Marks α) (e : List α) : Prop :=
  ∃ body, m.fin ∉ body ∧ e = m.esc :: m.opn :: (body ++ [m.fin])

/-- Every sequence that starts in the text is ended in it. -/
def Ended (m : Marks α) (u : List α) : Prop :=
  ∀ a b, u = a ++ m.esc :: m.opn :: b → m.fin ∈ b

/-- Outside any sequence, the first symbol of a sequence and later the second one are kept
apart by nothing but one or more sequences. -/
def Rejoins (m : Marks α) (t : List α) : Prop :=
  ∃ u es v, t = u ++ m.esc :: (es.flatten ++ m.opn :: v) ∧ Ended m u ∧ es ≠ [] ∧
    ∀ e ∈ es, IsEscape m e

/-- A text made of one symbol and of sequences, the last of which need not be ended. -/
def Bare (m : Marks α) (x : α) (t : List α) : Prop :=
  ∃ ps tail, t = List.flatten ps ++ tail ∧ (∀ p ∈ ps, p = [x] ∨ IsEscape m p) ∧
    (tail = [] ∨ ∃ rest, m.fin ∉ rest ∧ tail = m.esc :: m.opn :: rest)

/-- The text without its escape sequences; the flag tells whether it starts inside one. -/
def strip [DecidableEq α] (m : Marks α) : Bool → List α → List α
  | _, [] => []
  | false, c :: rest =>
      if c = m.esc ∧ rest.head? = some m.opn then strip m true rest else c :: strip m false rest
  | true, c :: rest => if c = m.fin then strip m false rest else strip m true rest

variable {m : Marks α} {c : α} {e u v t rest : List α}

/-! ### How a text is read -/

/-- The induction that follows the pass: a symbol that starts no sequence, a sequence, or a
sequence that is not ended. -/
theorem reading {P : List α → Prop} (nil : P [])
    (plain : ∀ c rest, (c = m.esc → rest.head? ≠ some m.opn) → P rest → P (c :: rest))
    (escape : ∀ e rest, IsEscape m e → P rest → P (e ++ rest))
    (endless : ∀ rest, m.fin ∉ rest → P (m.esc :: m.opn :: rest)) (t : List α) : P t := by
  induction hn : t.length using Nat.strong_induction_on generalizing t with
  | _ n ih =>
      subst hn
      rcases t with - | ⟨c, rest⟩
      · exact nil
      by_cases hopen : c = m.esc → rest.head? ≠ some m.opn
      · exact plain c rest hopen (ih _ (by simp) rest rfl)
      -- a sequence starts here
      rw [Classical.not_imp, not_not] at hopen
      obtain ⟨rfl, hhead⟩ := hopen
      obtain ⟨rest, rfl⟩ : ∃ rest', rest = m.opn :: rest' :=
        ⟨rest.tail, (List.cons_head?_tail hhead).symm⟩
      by_cases hfin : m.fin ∈ rest
      · obtain ⟨body, after, rfl, hbody⟩ := List.eq_append_cons_of_mem hfin
        have hesc : IsEscape m (m.esc :: m.opn :: (body ++ [m.fin])) := ⟨body, hbody, rfl⟩
        have h := escape _ after hesc (ih _ (by simp; omega) after rfl)
        simpa using h
      · exact endless rest hfin

/-! ### Ended texts -/

theorem Ended.of_append (h : Ended m (t ++ u)) : Ended m u := by
  rintro a b rfl
  exact h (t ++ a) b (by simp)

theorem Ended.cons (h : Ended m u) (hc : c = m.esc → u.head? ≠ some m.opn) :
    Ended m (c :: u) := by
  intro a b e
  rcases a with - | ⟨c', a⟩
  · obtain ⟨rfl, rfl⟩ := List.cons.inj e
    exact absurd rfl (hc rfl)
  · obtain ⟨-, rfl⟩ := List.cons.inj e
    exact h a b rfl

theorem ended_nil : Ended m [] := by
  intro a b e
  simp at e

theorem Ended.escape (h : Ended m u) (he : IsEscape m e) : Ended m (e ++ u) := by
  obtain ⟨body, -, rfl⟩ := he
  intro a b hab
  rcases List.append_eq_append_iff.mp hab with ⟨x, rfl, rfl⟩ | ⟨x, hx, hxb⟩
  · exact h x b rfl
  rcases List.eq_nil_or_concat x with rfl | ⟨y, z, rfl⟩
  · -- the two symbols come right after the sequence
    exact h [] b hxb.symm
  · -- they start inside it, and its end is still to come
    have hz : m.fin = z := by
      have hends : (m.esc :: m.opn :: body) ++ [m.fin] = (a ++ y) ++ [z] := by simpa using hx
      have hlast := congrArg List.getLast? hends
      rw [List.getLast?_concat, List.getLast?_concat] at hlast
      exact Option.some.inj hlast
    have hmem : m.fin ∈ m.esc :: m.opn :: b := by
      rw [hxb, ← hz]
      simp
    have hne₁ := m.esc_ne_fin.symm
    have hne₂ := m.opn_ne_fin.symm
    simpa [hne₁, hne₂] using hmem

theorem ended_of_not_opening (h : ¬ Opening m u) : Ended m u := by
  rintro a b rfl
  exact absurd ⟨a, b, by simp⟩ h

theorem not_ended_endless (h : m.fin ∉ rest) : ¬ Ended m (m.esc :: m.opn :: rest) :=
  fun hc => h (hc [] rest rfl)

theorem Ended.append (hu : Ended m u) (hv : Ended m v) (hhead : v.head? ≠ some m.opn) :
    Ended m (u ++ v) := by
  induction u using reading (m := m) with
  | nil => exact hv
  | plain c rest hc ih =>
      have hrest : Ended m (rest ++ v) := ih (Ended.of_append (t := [c]) hu)
      refine hrest.cons fun h => ?_
      rcases rest with - | ⟨x, rest⟩
      · exact hhead
      · exact hc h
  | escape e rest he ih =>
      rw [List.append_assoc]
      have hrest : Ended m (rest ++ v) := ih hu.of_append
      exact hrest.escape he
  | endless rest hfin => exact absurd hu (not_ended_endless hfin)

/-! ### Texts that rejoin a start -/

theorem opening_cons : Opening m (c :: rest) ↔
    c = m.esc ∧ rest.head? = some m.opn ∨ Opening m rest := by
  rw [Opening, List.infix_cons_iff, Opening]
  refine or_congr ?_ Iff.rfl
  rw [List.cons_prefix_cons]
  rcases rest with - | ⟨d, rest⟩
  · simp
  · simp [List.cons_prefix_cons, eq_comm]

theorem Rejoins.cons (h : Rejoins m rest) (hc : c = m.esc → rest.head? ≠ some m.opn) :
    Rejoins m (c :: rest) := by
  obtain ⟨u, es, v, rfl, hu, hne, hes⟩ := h
  refine ⟨c :: u, es, v, rfl, hu.cons fun hesc hhead => hc hesc ?_, hne, hes⟩
  rw [List.head?_append, hhead]
  rfl

theorem Rejoins.escape (h : Rejoins m rest) (he : IsEscape m e) : Rejoins m (e ++ rest) := by
  obtain ⟨u, es, v, rfl, hu, hne, hes⟩ := h
  exact ⟨e ++ u, es, v, by simp, hu.escape he, hne, hes⟩

theorem Bare.piece {x : α} {p : List α} (h : Bare m x t) (hp : p = [x] ∨ IsEscape m p) :
    Bare m x (p ++ t) := by
  obtain ⟨ps, tail, rfl, hps, htail⟩ := h
  exact ⟨p :: ps, tail, by simp, List.forall_mem_cons.mpr ⟨hp, hps⟩, htail⟩

/-! ### The pass -/

section strip

variable [DecidableEq α]

theorem strip_plain (h : c = m.esc → rest.head? ≠ some m.opn) :
    strip m false (c :: rest) = c :: strip m false rest := by
  rw [strip, if_neg fun hopen => h hopen.1 hopen.2]

theorem strip_opening (rest : List α) :
    strip m false (m.esc :: m.opn :: rest) = strip m true rest := by
  rw [strip, if_pos ⟨rfl, rfl⟩, strip, if_neg m.opn_ne_fin]

theorem strip_sublist (inside : Bool) (t : List α) : List.Sublist (strip m inside t) t := by
  fun_induction strip m inside t with
  | case1 => exact List.Sublist.refl _
  | case2 c rest _ ih => exact ih.cons c
  | case3 c rest _ ih => exact ih.cons_cons c
  | case4 rest ih => exact ih.cons _
  | case5 c rest _ ih => exact ih.cons c

/-- Inside a sequence, everything up to its end is skipped. -/
theorem strip_inside {body : List α} (h : m.fin ∉ body) (v : List α) :
    strip m true (body ++ m.fin :: v) = strip m false v := by
  induction body with
  | nil => rw [List.nil_append, strip, if_pos rfl]
  | cons c body ih =>
      have hc := List.ne_of_not_mem_cons h
      have hbody := List.not_mem_of_not_mem_cons h
      rw [List.cons_append, strip, if_neg (Ne.symm hc), ih hbody]

theorem strip_endless (h : m.fin ∉ rest) : strip m true rest = [] := by
  induction rest with
  | nil => rfl
  | cons c rest ih =>
      have hc := List.ne_of_not_mem_cons h
      have hrest := List.not_mem_of_not_mem_cons h
      rw [strip, if_neg (Ne.symm hc), ih hrest]

theorem IsEscape.strip (he : IsEscape m e) (v : List α) :
    strip m false (e ++ v) = strip m false v := by
  obtain ⟨body, hbody, rfl⟩ := he
  have hcut : m.esc :: m.opn :: (body ++ [m.fin]) ++ v = m.esc :: m.opn :: (body ++ m.fin :: v) := by
    simp
  rw [hcut, strip_opening, strip_inside hbody]

theorem strip_escapes {es : List (List α)} (hes : ∀ e ∈ es, IsEscape m e) (v : List α) :
    strip m false (es.flatten ++ v) = strip m false v := by
  induction es with
  | nil => rfl
  | cons e es ih =>
      rw [List.flatten_cons, List.append_assoc, (hes e List.mem_cons_self).strip]
      exact ih fun e' he' => hes e' (List.mem_cons_of_mem _ he')

/-- After a text in which all sequences are ended the pass starts anew, unless the last
symbol of the text starts a sequence. -/
theorem strip_append (hu : Ended m u) (hv : v.head? ≠ some m.opn) :
    strip m false (u ++ v) = strip m false u ++ strip m false v := by
  induction u using reading (m := m) with
  | nil => rfl
  | plain c rest hc ih =>
      have hc' : c = m.esc → (rest ++ v).head? ≠ some m.opn := by
        intro h
        rcases rest with - | ⟨d, rest⟩
        · exact hv
        · exact hc h
      rw [List.cons_append, strip_plain hc', strip_plain hc, ih (Ended.of_append (t := [c]) hu)]
      rfl
  | escape e rest he ih => rw [List.append_assoc, he.strip, he.strip, ih hu.of_append]
  | endless rest hfin => exact absurd hu (not_ended_endless hfin)

/-! ### What one pass leaves -/

/-- Before the second symbol of a sequence comes to the front, only sequences have gone. -/
theorem strip_eq_opn {y : List α} (h : strip m false t = m.opn :: y) :
    ∃ (es : List (List α)) (v : List α), t = es.flatten ++ m.opn :: v ∧ ∀ e ∈ es, IsEscape m e := by
  induction t using reading (m := m) with
  | nil => cases h
  | plain c rest hc ih =>
      rw [strip_plain hc] at h
      obtain ⟨rfl, -⟩ := List.cons.inj h
      exact ⟨[], rest, rfl, by simp⟩
  | escape e rest he ih =>
      rw [he.strip] at h
      obtain ⟨es, v, rfl, hes⟩ := ih h
      exact ⟨e :: es, v, by simp, List.forall_mem_cons.mpr ⟨he, hes⟩⟩
  | endless rest hfin =>
      rw [strip_opening, strip_endless hfin] at h
      cases h

/-- One pass leaves the start of a sequence behind if and only if the text rejoins one. -/
theorem opening_strip_iff : Opening m (strip m false t) ↔ Rejoins m t := by
  constructor
  · intro h
    induction t using reading (m := m) with
    | nil => simp [strip, Opening] at h
    | plain c rest hc ih =>
        rw [strip_plain hc, opening_cons] at h
        rcases h with ⟨rfl, hhead⟩ | h
        · -- the first symbol is kept, and the second one comes next after some sequences
          obtain ⟨es, v, rfl, hes⟩ := strip_eq_opn (List.cons_head?_tail hhead).symm
          refine ⟨[], es, v, rfl, ended_nil, ?_, hes⟩
          rintro rfl
          exact hc rfl rfl
        · exact (ih h).cons hc
    | escape e rest he ih =>
        rw [he.strip] at h
        exact (ih h).escape he
    | endless rest hfin =>
        rw [strip_opening, strip_endless hfin] at h
        simp [Opening] at h
  · rintro ⟨u, es, v, rfl, hu, hne, hes⟩
    obtain ⟨e, es, rfl⟩ := List.exists_cons_of_ne_nil hne
    obtain ⟨body, hbody, he⟩ := hes e List.mem_cons_self
    have hnext : ((e :: es).flatten ++ m.opn :: v).head? ≠ some m.opn := by
      rw [he]
      simpa using m.esc_ne_opn
    rw [strip_append hu (by simpa using m.esc_ne_opn), strip_plain fun _ => hnext,
      strip_escapes hes, strip_plain fun h => absurd h.symm m.esc_ne_opn]
    exact ⟨strip m false u, strip m false v, by simp⟩

instance (m : Marks α) (t : List α) : Decidable (Rejoins m t) :=
  decidable_of_iff _ opening_strip_iff

/-- Where a sequence starts, its first symbol goes. -/
theorem count_strip_lt (h : Opening m t) : (strip m false t).count m.esc < t.count m.esc := by
  induction t using reading (m := m) with
  | nil => simp [Opening] at h
  | plain c rest hc ih =>
      have hrest : Opening m rest := (opening_cons.mp h).resolve_left fun hopen => hc hopen.1 hopen.2
      have hlt := ih hrest
      rw [strip_plain hc, List.count_cons, List.count_cons]
      exact Nat.add_lt_add_right hlt _
  | escape e rest he ih =>
      have hle := (strip_sublist (m := m) false rest).count_le m.esc
      have hpos : 0 < e.count m.esc := by
        obtain ⟨body, -, rfl⟩ := he
        simp
      rw [he.strip, List.count_append]
      omega
  | endless rest hfin =>
      rw [strip_opening, strip_endless hfin]
      simp

/-- A text is its own result if and only if no sequence starts in it. -/
theorem strip_eq_self_iff : strip m false t = t ↔ ¬ Opening m t := by
  constructor
  · intro hself hopen
    have hlt := count_strip_lt hopen
    rw [hself] at hlt
    exact lt_irrefl _ hlt
  · intro h
    induction t with
    | nil => rfl
    | cons c rest ih =>
        rw [opening_cons, not_or] at h
        rw [strip_plain fun hc hhead => h.1 ⟨hc, hhead⟩, ih h.2]

/-- One pass leaves nothing but the symbol `x` of a text if and only if the text is made of
it and of sequences. -/
theorem strip_eq_iff_bare {x : α} (hx : x ≠ m.esc) :
    (∀ c ∈ strip m false t, c = x) ↔ Bare m x t := by
  constructor
  · intro h
    induction t using reading (m := m) with
    | nil => exact ⟨[], [], rfl, by simp, Or.inl rfl⟩
    | plain c rest hc ih =>
        rw [strip_plain hc, List.forall_mem_cons] at h
        have hrest : Bare m x rest := ih h.2
        exact hrest.piece (p := [c]) (Or.inl (by rw [h.1]))
    | escape e rest he ih =>
        rw [he.strip] at h
        have hrest : Bare m x rest := ih h
        exact hrest.piece (Or.inr he)
    | endless rest hfin => exact ⟨[], _, rfl, by simp, Or.inr ⟨rest, hfin, rfl⟩⟩
  · rintro ⟨ps, tail, rfl, hps, htail⟩
    induction ps with
    | nil =>
        rcases htail with rfl | ⟨rest, hfin, rfl⟩
        · simp [strip]
        · rw [List.flatten_nil, List.nil_append, strip_opening, strip_endless hfin]
          simp
    | cons p ps ih =>
        have hrest := ih fun q hq => hps q (List.mem_cons_of_mem _ hq)
        rw [List.flatten_cons, List.append_assoc]
        rcases hps p List.mem_cons_self with rfl | he
        · rw [List.singleton_append, strip_plain fun h => absurd h hx]
          exact List.forall_mem_cons.mpr ⟨rfl, hrest⟩
        · rwa [he.strip]

end strip

end Escapes
