/-
SystemsPortfolio/Lib/CacheView.lean

Write-back caches.

A cache is a list of slots in front of a memory.  Every slot has a key, and a slot that is
valid holds the contents of its key.  `view` is what a client sees: the contents of the
first slot with the key if it is valid, the memory if there is none.  Several slots may have
one key as long as all of them but the first are unused (`Sound`); this is how a cache
starts whose slots all have the same key.

The lemmas say what the operations of a cache do to the view: filling a slot from the
memory, writing it back, giving it to another key and moving it to the front do nothing,
and a write to a valid slot is a write to its key.
-/
import Mathlib.Data.List.Nodup
import Mathlib.Logic.Function.Basic

namespace CacheView

variable {β κ δ : Type*}

/-- Slots `β` with the contents `δ` of the keys `κ`. -/
structure Cache (β κ δ : Type*) where
  order : List β
  key : β → κ
  valid : β → Bool
  data : β → δ
  mem : κ → δ

variable [DecidableEq κ] {c c' : Cache β κ δ} {used : β → Prop} {a : κ} {b : β}

/-- The slot in which a search finds `a`. -/
def Cache.lookup (c : Cache β κ δ) (a : κ) : Option β := c.order.find? fun b => c.key b = a

omit [DecidableEq κ] in
/-- The contents of a slot. -/
def Cache.content (c : Cache β κ δ) (b : β) : δ := if c.valid b then c.data b else c.mem (c.key b)

/-- What a client sees. -/
def Cache.view (c : Cache β κ δ) (a : κ) : δ :=
  match c.lookup a with
  | some b => c.content b
  | none => c.mem a

/-- Every slot in use is the one in which a search finds its key. -/
structure Sound (used : β → Prop) (c : Cache β κ δ) : Prop where
  nodup : c.order.Nodup
  complete : ∀ b, b ∈ c.order
  first : ∀ b, used b → c.lookup (c.key b) = some b
  valid : ∀ b, c.valid b = true → used b

theorem key_of_lookup (h : c.lookup a = some b) : c.key b = a := by
  rw [Cache.lookup] at h
  simpa using List.find?_some h

omit [DecidableEq κ] in
theorem content_of_valid (h : c.valid b = true) : c.content b = c.data b := if_pos h

omit [DecidableEq κ] in
theorem content_of_invalid (h : ¬ c.valid b = true) : c.content b = c.mem (c.key b) := if_neg h

omit [DecidableEq κ] in
theorem content_congr (hvalid : c'.valid b = c.valid b) (hdata : c'.data b = c.data b)
    (hmem : c'.mem (c'.key b) = c.mem (c.key b)) : c'.content b = c.content b := by
  rw [Cache.content, Cache.content, hvalid, hdata, hmem]

theorem view_of_lookup (h : c.lookup a = some b) : c.view a = c.content b := by
  rw [Cache.view, h]

theorem view_of_lookup_none (h : c.lookup a = none) : c.view a = c.mem a := by
  rw [Cache.view, h]

theorem Sound.lookup_eq_none (h : Sound used c) : c.lookup a = none ↔ ∀ b, c.key b ≠ a := by
  rw [Cache.lookup, List.find?_eq_none]
  simp only [decide_eq_true_eq]
  exact ⟨fun hall b => hall b (h.complete b), fun hall b _ => hall b⟩

/-- Only the order and the keys matter, and which slots are in use. -/
theorem Sound.congr {δ' : Type*} {c' : Cache β κ δ'} {used' : β → Prop} (h : Sound used c)
    (horder : c'.order = c.order) (hkey : c'.key = c.key)
    (hused : ∀ b, used' b → used b ∨ c.lookup (c.key b) = some b)
    (hvalid : ∀ b, c'.valid b = true → used' b) : Sound used' c' where
  nodup := horder ▸ h.nodup
  complete := horder ▸ h.complete
  first b hb := by
    rw [Cache.lookup, horder, hkey]
    exact (hused b hb).elim (h.first b) id
  valid := hvalid

/-- A slot in use shows what is under its key. -/
theorem Sound.view_key (h : Sound used c) (hb : used b) : c.view (c.key b) = c.content b :=
  view_of_lookup (h.first b hb)

/-- The search depends on the order and the keys, the view on the slots found. -/
theorem view_congr (hlookup : ∀ a, c'.lookup a = c.lookup a)
    (hcontent : ∀ b, c.lookup (c.key b) = some b → c'.content b = c.content b)
    (hmem : ∀ a, c.lookup a = none → c'.mem a = c.mem a) : c'.view = c.view := by
  funext a
  rw [Cache.view, Cache.view, hlookup]
  rcases e : c.lookup a with - | b
  · exact hmem a e
  · refine hcontent b ?_
    rw [key_of_lookup e, e]

variable [DecidableEq β]

/-- A slot is read from the memory. -/
def Cache.fill (c : Cache β κ δ) (b : β) : Cache β κ δ :=
  { c with
    valid := Function.update c.valid b true
    data := Function.update c.data b (c.mem (c.key b)) }

omit [DecidableEq β] in
/-- A slot is written back to the memory. -/
def Cache.flush (c : Cache β κ δ) (b : β) : Cache β κ δ :=
  { c with mem := Function.update c.mem (c.key b) (c.data b) }

/-- The contents of a slot change. -/
def Cache.write (c : Cache β κ δ) (b : β) (d : δ) : Cache β κ δ :=
  { c with data := Function.update c.data b d }

theorem view_fill (hb : c.valid b = false) : (c.fill b).view = c.view := by
  refine view_congr (fun _ => rfl) (fun d _ => ?_) fun _ _ => rfl
  rcases eq_or_ne d b with rfl | hd
  · have hnew : (c.fill d).valid d = true := Function.update_self ..
    rw [content_of_valid hnew, content_of_invalid (c := c) (by rw [hb]; decide)]
    exact Function.update_self ..
  · exact content_congr (Function.update_of_ne hd ..) (Function.update_of_ne hd ..) rfl

omit [DecidableEq β] in
theorem Sound.view_flush (h : Sound used c) (hb : c.valid b = true) :
    (c.flush b).view = c.view := by
  have hfirst := h.first b (h.valid b hb)
  refine view_congr (fun _ => rfl) (fun d hd => ?_) fun a ha => ?_
  · rcases eq_or_ne d b with rfl | hdb
    · rw [content_of_valid (c := c.flush d) hb, content_of_valid hb]
      rfl
    · have hkey : c.key d ≠ c.key b := by
        intro e
        rw [e, hfirst] at hd
        exact hdb (Option.some.inj hd).symm
      exact content_congr rfl rfl (Function.update_of_ne hkey ..)
  · refine Function.update_of_ne ?_ ..
    rintro rfl
    rw [hfirst] at ha
    cases ha

omit [DecidableEq β] in
/-- When one slot in use changes, so does its key. -/
theorem Sound.view_set (h : Sound used c) (hb : used b) (horder : c'.order = c.order)
    (hkey : c'.key = c.key) (hmem : c'.mem = c.mem)
    (hcontent : ∀ d, d ≠ b → c'.content d = c.content d) :
    c'.view = Function.update c.view (c.key b) (c'.content b) := by
  have hfirst := h.first b hb
  have hlookup (a : κ) : c'.lookup a = c.lookup a := by
    rw [Cache.lookup, Cache.lookup, horder, hkey]
  funext a
  rcases eq_or_ne a (c.key b) with rfl | ha
  · rw [Function.update_self, view_of_lookup ((hlookup _).trans hfirst)]
  · rw [Function.update_of_ne ha, Cache.view, Cache.view, hlookup, hmem]
    rcases e : c.lookup a with - | d
    · rfl
    · refine hcontent d ?_
      rintro rfl
      exact ha (key_of_lookup e).symm

/-- A write to a valid slot is a write to its key. -/
theorem Sound.view_write (h : Sound used c) (hb : c.valid b = true) (d : δ) :
    (c.write b d).view = Function.update c.view (c.key b) d := by
  have hnew : (c.write b d).content b = d :=
    (content_of_valid (c := c.write b d) hb).trans (Function.update_self ..)
  have hset : (c.write b d).view = Function.update c.view (c.key b) ((c.write b d).content b) :=
    h.view_set (h.valid b hb) rfl rfl rfl fun _ he =>
      content_congr rfl (Function.update_of_ne he ..) rfl
  rw [hset, hnew]

/-! ### Moving a slot to the front -/

def Cache.moveFront (c : Cache β κ δ) (b : β) : Cache β κ δ :=
  { c with order := b :: c.order.erase b }

/-- A slot that a search finds can be moved to the front. -/
theorem lookup_moveFront (hn : c.order.Nodup) (hb : c.lookup (c.key b) = some b) :
    (c.moveFront b).lookup a = c.lookup a := by
  rw [Cache.moveFront]
  rw [Cache.lookup, List.find?_cons]
  by_cases ha : c.key b = a
  · rw [← ha, hb]
    simp
  · rw [decide_eq_false ha, Cache.lookup]
    dsimp only
    rw [hn.erase_eq_filter, List.find?_filter]
    congr 1
    funext d
    rcases eq_or_ne d b with rfl | hd
    · simp [ha]
    · simp [hd]

theorem view_moveFront (hn : c.order.Nodup) (hb : c.lookup (c.key b) = some b) :
    (c.moveFront b).view = c.view :=
  view_congr (fun _ => lookup_moveFront hn hb) (fun _ _ => rfl) fun _ _ => rfl

theorem Sound.moveFront (h : Sound used c) (hb : used b) {used' : β → Prop}
    (hused : ∀ b, used' b → used b) (hvalid : ∀ b, c.valid b = true → used' b) :
    Sound used' (c.moveFront b) where
  nodup := List.nodup_cons.mpr ⟨h.nodup.not_mem_erase, h.nodup.erase b⟩
  complete d := by
    rcases eq_or_ne d b with rfl | hd
    · exact List.mem_cons_self
    · exact List.mem_cons_of_mem _ ((List.mem_erase_of_ne hd).mpr (h.complete d))
  first d hd := (lookup_moveFront h.nodup (h.first b hb)).trans (h.first d (hused d hd))
  valid := hvalid

/-! ### Giving a slot to another key -/

/-- A slot is given to a key that no slot has. -/
def Cache.recycle (c : Cache β κ δ) (b : β) (a : κ) : Cache β κ δ :=
  { c with key := Function.update c.key b a, valid := Function.update c.valid b false }

theorem Sound.lookup_recycle_self (h : Sound used c) (ha : c.lookup a = none) :
    (c.recycle b a).lookup a = some b := by
  have hnone := h.lookup_eq_none.mp ha
  rw [Cache.lookup, List.find?_eq_some_iff_append]
  obtain ⟨as, bs, e⟩ := List.append_of_mem (h.complete b)
  refine ⟨by simp [Cache.recycle], as, bs, e, fun d hd => ?_⟩
  have hne : d ≠ b := by
    rintro rfl
    have hn := h.nodup
    rw [e, List.nodup_append] at hn
    exact hn.2.2 _ hd _ List.mem_cons_self rfl
  simp [Cache.recycle, hne, hnone]

/-- Slots found under other keys are still found. -/
theorem lookup_recycle {a' : κ} {d : β} (ha : a' ≠ a) (hd : d ≠ b) (h : c.lookup a' = some d) :
    (c.recycle b a).lookup a' = some d := by
  rw [Cache.lookup, List.find?_eq_some_iff_append] at h ⊢
  obtain ⟨hkey, as, bs, e, hall⟩ := h
  refine ⟨by simpa [Cache.recycle, hd] using hkey, as, bs, e, fun x hx => ?_⟩
  have hx' := hall x hx
  rcases eq_or_ne x b with rfl | hxb
  · simp [Cache.recycle, ha.symm]
  · simpa [Cache.recycle, hxb] using hx'

theorem Sound.recycle (h : Sound used c) (ha : c.lookup a = none) {used' : β → Prop}
    (hused : ∀ d, used' d → d = b ∨ used d) (hvalid : ∀ d, d ≠ b → c.valid d = true → used' d) :
    Sound used' (c.recycle b a) where
  nodup := h.nodup
  complete := h.complete
  first d hd := by
    rcases eq_or_ne d b with rfl | hdb
    · dsimp only [Cache.recycle]
      rw [Function.update_self]
      exact h.lookup_recycle_self ha
    · have hkey : (c.recycle b a).key d = c.key d := Function.update_of_ne hdb ..
      rw [hkey]
      refine lookup_recycle ?_ hdb (h.first d ((hused d hd).resolve_left hdb))
      exact h.lookup_eq_none.mp ha d
  valid d hd := by
    rcases eq_or_ne d b with rfl | hdb
    · dsimp only [Cache.recycle] at hd
      rw [Function.update_self] at hd
      cases hd
    · refine hvalid d hdb ?_
      dsimp only [Cache.recycle] at hd
      rwa [Function.update_of_ne hdb] at hd

/-- A slot whose contents the memory has can be given away. -/
theorem Sound.view_recycle (h : Sound used c) (ha : c.lookup a = none)
    (hclean : c.content b = c.mem (c.key b)) : (c.recycle b a).view = c.view := by
  have hcontent {d : β} (hd : d ≠ b) : (c.recycle b a).content d = c.content d := by
    refine content_congr (Function.update_of_ne hd ..) rfl ?_
    exact congrArg c.mem (Function.update_of_ne hd ..)
  funext a'
  rcases eq_or_ne a' a with rfl | haa
  · rw [view_of_lookup_none ha, view_of_lookup (h.lookup_recycle_self ha)]
    simp [Cache.content, Cache.recycle]
  · rcases e' : (c.recycle b a).lookup a' with - | d
    · -- the key is gone, and if it was that of `b` the memory has its contents
      rw [view_of_lookup_none e']
      rcases e : c.lookup a' with - | d
      · rw [view_of_lookup_none e]
        rfl
      · have hdb : d = b := by
          by_contra hd
          rw [lookup_recycle haa hd e] at e'
          cases e'
        subst hdb
        rw [view_of_lookup e, hclean, key_of_lookup e]
        rfl
    · have hdb : d ≠ b := by
        rintro rfl
        have hkey : (c.recycle d a).key d = a := Function.update_self ..
        exact haa (hkey ▸ (key_of_lookup e').symm)
      have hkey : c.key d = a' := by
        have hsame : (c.recycle b a).key d = c.key d := Function.update_of_ne hdb ..
        rw [← hsame, key_of_lookup e']
      rw [view_of_lookup e', hcontent hdb]
      rcases e : c.lookup a' with - | d'
      · exact absurd hkey (h.lookup_eq_none.mp e d)
      · by_cases hd' : d' = b
        · -- `d` was behind `b`, hence not in use
          subst hd'
          have hinvalid : ¬ c.valid d = true := by
            intro hv
            have := h.first d (h.valid d hv)
            rw [hkey, e] at this
            exact hdb (Option.some.inj this).symm
          rw [view_of_lookup e, hclean, key_of_lookup e, Cache.content, if_neg hinvalid, hkey]
        · have := lookup_recycle haa hd' e
          rw [e'] at this
          rw [Option.some.inj this, view_of_lookup e]

end CacheView
