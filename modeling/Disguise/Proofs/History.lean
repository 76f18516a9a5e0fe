import Disguise.Log
import Mathlib.Algebra.GroupWithZero.Nat
import Mathlib.Data.List.DropRight
import Mathlib.Data.List.Nodup

/-!
The memory of a log. Read from the oldest slot to the newest, the ring holds the latest lines that
it has slots for, the first of them blanked: as many as it takes for the others to fit, and never
the newest one. So what is shown are the lines of the longest suffix within both limits, or the
newest line alone.
-/
namespace Disguise.Log

/-- The number of bytes of some lines. -/
def volume (lines : List Bytes) : Nat := (lines.map List.length).sum

@[simp] theorem volume_nil : volume [] = 0 := rfl

@[simp] theorem volume_cons (line : Bytes) (lines : List Bytes) :
    volume (line :: lines) = line.length + volume lines := rfl

@[simp] theorem volume_append (l l' : List Bytes) : volume (l ++ l') = volume l + volume l' := by
  simp [volume]

@[simp] theorem volume_blank (n : Nat) : volume (List.replicate n []) = 0 := by
  simp [volume]

theorem volume_drop_le (lines : List Bytes) {i j : Nat} (h : i ≤ j) :
    volume (lines.drop j) ≤ volume (lines.drop i) := by
  obtain ⟨k, rfl⟩ := Nat.exists_eq_add_of_le h
  rw [← List.drop_drop, ← List.take_append_drop k (lines.drop i), volume_append,
    List.take_append_drop]
  exact Nat.le_add_left _ _

namespace History
variable {h h' : History}

/-- The lines in the slots from the oldest to the newest, blank ones too. -/
def view (h : History) : List Bytes := h.order.map h.slots.get

/-- Slots are written one after the other, again from the first one when none is left; `size` keeps
count of the bytes in them. -/
structure Sound (h : History) : Prop where
  written : h.slots.size ≤ h.room
  pos : h.pos < h.room
  filling : h.slots.size < h.room → h.pos = h.slots.size
  size : h.size = volume h.view

/-- The slots that keep their lines when another line comes. -/
def staying (h : History) : List Nat :=
  if h.slots.size < h.room then h.order else h.order.tail

/-- A history with one more line, however large it is. -/
def filled (h : History) (line : Bytes) : History :=
  { h with
    slots := h.slots.set h.pos line
    size := h.size - (h.slots.get h.pos).length + line.length
    pos := (h.pos + 1) % h.room }

/-- Starting at the slot behind the last one is starting at the first. -/
theorem rotate_mod {l : List Nat} {p r : Nat} (hl : l.length ≤ r) (hp : p < r) :
    l.drop ((p + 1) % r) ++ l.take ((p + 1) % r) = l.drop (p + 1) ++ l.take (p + 1) := by
  rcases Nat.lt_or_ge (p + 1) r with hlt | hge
  · rw [Nat.mod_eq_of_lt hlt]
  · obtain rfl : r = p + 1 := by omega
    rw [Nat.mod_self, List.drop_of_length_le hl, List.take_of_length_le hl]
    simp

theorem take_succ_range {n p : Nat} (h : p < n) :
    (List.range n).take (p + 1) = List.range p ++ [p] := by
  rw [List.take_range, Nat.min_eq_left h, List.range_succ]

/-- When there is no room left, the slot to be written next holds the oldest line. -/
theorem order_of_full (hs : h.Sound) (hfull : ¬ h.slots.size < h.room) :
    h.order = h.pos :: ((List.range h.slots.size).drop (h.pos + 1) ++ List.range h.pos) := by
  have hpos := hs.pos
  have hlt : h.pos < (List.range h.slots.size).length := by
    rw [List.length_range]
    omega
  rw [order, List.drop_eq_getElem_cons hlt, List.getElem_range, List.take_range,
    Nat.min_eq_left (by omega), List.cons_append]

theorem slots_size_filled (h : History) (line : Bytes) :
    (h.filled line).slots.size = max h.slots.size (h.pos + 1) :=
  Table.size_set _ _ _

theorem order_filled (hs : h.Sound) (line : Bytes) :
    (h.filled line).order = h.staying ++ [h.pos] := by
  have hpos := hs.pos
  have hwritten := hs.written
  unfold order staying
  rw [slots_size_filled]
  change List.drop ((h.pos + 1) % h.room) _ ++ List.take ((h.pos + 1) % h.room) _ = _
  rw [rotate_mod (by simp; omega) hpos, take_succ_range (by omega), ← List.append_assoc]
  congr 1
  split
  · rename_i hlt
    have hfill := hs.filling hlt
    rw [order, List.drop_of_length_le (by simp; omega), List.drop_of_length_le (by simp; omega),
      List.take_of_length_le (by simp; omega), hfill]
  · rename_i hfull
    rw [order_of_full hs hfull, List.tail_cons, Nat.max_eq_left (by omega)]

theorem perm_order (h : History) : h.order.Perm (List.range h.slots.size) := by
  rw [← List.take_append_drop h.pos (List.range h.slots.size)]
  exact List.perm_append_comm.trans (by simp)

theorem nodup_order (h : History) : h.order.Nodup :=
  h.perm_order.symm.nodup List.nodup_range

theorem pos_not_mem_staying (hs : h.Sound) : h.pos ∉ h.staying := by
  have hn := (h.filled []).nodup_order
  rw [order_filled hs [], List.nodup_append] at hn
  exact fun hmem => hn.2.2 _ hmem _ (by simp) rfl

/-- A new line comes behind those that stay. -/
theorem view_filled (hs : h.Sound) (line : Bytes) :
    (h.filled line).view = h.staying.map h.slots.get ++ [line] := by
  unfold view
  rw [order_filled hs line, List.map_append, List.map_singleton]
  congr 1
  · refine List.map_congr_left fun i hi => ?_
    have hne : i ≠ h.pos := fun heq => pos_not_mem_staying hs (heq ▸ hi)
    exact (h.slots.get_set _ _ _).trans (if_neg hne)
  · exact congrArg (fun l => [l]) ((h.slots.get_set _ _ _).trans (if_pos rfl))

/-- The lines that stay are all of them while there is room, and later all but the oldest. -/
theorem map_staying (h : History) : h.staying.map h.slots.get =
    if h.slots.size < h.room then h.view else h.view.tail := by
  unfold staying view
  split
  · rfl
  · exact List.map_tail

theorem size_filled (hs : h.Sound) (line : Bytes) :
    (h.filled line).size = volume (h.filled line).view := by
  have hsize := hs.size
  rw [view_filled hs line, volume_append, map_staying]
  change h.size - (h.slots.get h.pos).length + line.length = _
  split
  · rename_i hlt
    have hblank : h.slots.get h.pos = [] :=
      h.slots.get_of_size_le (Nat.le_of_eq (hs.filling hlt).symm)
    simp [hblank, hsize]
  · rename_i hfull
    have hview : h.view = h.slots.get h.pos :: h.view.tail := by
      rw [view, order_of_full hs hfull]
      rfl
    rw [hview, volume_cons] at hsize
    simp only [volume_cons, volume_nil]
    omega

theorem sound_filled (hs : h.Sound) (line : Bytes) : (h.filled line).Sound := by
  have hpos := hs.pos
  have hwritten := hs.written
  have hfilling := hs.filling
  refine ⟨?_, Nat.mod_lt _ (by omega), fun hlt => ?_, size_filled hs line⟩
  · rw [slots_size_filled]
    exact Nat.max_le.2 ⟨hwritten, hpos⟩
  · rw [slots_size_filled] at hlt ⊢
    change max h.slots.size (h.pos + 1) < h.room at hlt
    change (h.pos + 1) % h.room = _
    rw [Nat.mod_eq_of_lt (by omega), Nat.max_eq_right (by omega)]

/-- The slots in `gone` have been blanked, the last of them because there was still too much. -/
structure Blanked (h h' : History) (gone kept : List Nat) : Prop where
  get : ∀ i, h'.slots.get i = if i ∈ gone then [] else h.slots.get i
  slots : h'.slots.size = h.slots.size
  room : h'.room = h.room
  pos : h'.pos = h.pos
  maxSize : h'.maxSize = h.maxSize
  size : h'.size + volume (gone.map h.slots.get) = h.size
  enough : kept = [] ∨ h'.size ≤ h.maxSize
  needed : ∀ before i, gone = before ++ [i] → h.maxSize < h'.size + (h.slots.get i).length

/-- A history with a slot blanked. -/
def blank (h : History) (i : Nat) : History :=
  { h with size := h.size - (h.slots.get i).length, slots := h.slots.set i [] }

theorem evict_cons (i : Nat) (rest : List Nat) :
    h.evict (i :: rest) = if h.maxSize < h.size then (h.blank i).evict rest else h := rfl

theorem add_eq (h : History) (line : Bytes) :
    h.add line = (h.filled line).evict (h.filled line).order.dropLast := by
  change (if (h.filled line).maxSize < (h.filled line).size then
    (h.filled line).evict (h.filled line).order.dropLast else h.filled line) = _
  split
  · rfl
  · rename_i hfits
    cases (h.filled line).order.dropLast with
    | nil => rfl
    | cons i rest => rw [evict_cons, if_neg hfits]

theorem slots_size_blank {i : Nat} (hi : i < h.slots.size) :
    (h.blank i).slots.size = h.slots.size :=
  (Table.size_set _ _ _).trans (Nat.max_eq_left hi)

theorem get_blank (i j : Nat) :
    (h.blank i).slots.get j = if j = i then [] else h.slots.get j :=
  h.slots.get_set i j []

theorem map_get_blank {i : Nat} {slots : List Nat} (hi : i ∉ slots) :
    slots.map (h.blank i).slots.get = slots.map h.slots.get := by
  refine List.map_congr_left fun j hj => ?_
  have hne : j ≠ i := fun heq => hi (heq ▸ hj)
  rw [get_blank, if_neg hne]

theorem Blanked.none {slots : List Nat} (henough : slots = [] ∨ h.size ≤ h.maxSize) :
    Blanked h h [] slots :=
  ⟨by simp, rfl, rfl, rfl, rfl, rfl, henough, by simp⟩

/-- One more slot is blanked before the others. -/
theorem Blanked.cons {i : Nat} {gone kept : List Nat} (hb : Blanked (h.blank i) h' gone kept)
    (hi : i < h.slots.size) (hgone : i ∉ gone) (hle : (h.slots.get i).length ≤ h.size)
    (hlarge : h.maxSize < h.size) : Blanked h h' (i :: gone) kept := by
  have hsize := hb.size
  rw [map_get_blank hgone] at hsize
  change h'.size + volume (gone.map h.slots.get) = h.size - (h.slots.get i).length at hsize
  constructor
  case slots => exact hb.slots.trans (slots_size_blank hi)
  case room => exact hb.room
  case pos => exact hb.pos
  case maxSize => exact hb.maxSize
  case enough => exact hb.enough
  case get =>
    intro j
    rw [hb.get j, get_blank]
    by_cases hj : j = i <;> simp [hj]
  case size =>
    rw [List.map_cons, volume_cons]
    omega
  case needed =>
    intro before j heq
    cases before with
    | nil =>
      obtain ⟨rfl, rfl⟩ := List.cons.inj heq
      simp only [List.map_nil, volume_nil] at hsize
      omega
    | cons k before =>
      obtain ⟨-, rfl⟩ := List.cons.inj heq
      have hne : j ≠ i := by
        rintro rfl
        exact hgone (by simp)
      have hlast := hb.needed before j rfl
      rwa [get_blank, if_neg hne] at hlast

/-- Slots are blanked from the first on, until what is left is small enough or nothing is. -/
theorem blanked_evict {slots : List Nat} (hn : slots.Nodup) (hthere : ∀ i ∈ slots, i < h.slots.size)
    (hsize : volume (slots.map h.slots.get) ≤ h.size) :
    ∃ gone kept, slots = gone ++ kept ∧ Blanked h (h.evict slots) gone kept := by
  induction slots generalizing h with
  | nil => exact ⟨[], [], rfl, .none (.inl rfl)⟩
  | cons i rest ih =>
    obtain ⟨hnot, hn⟩ := List.nodup_cons.1 hn
    rw [List.map_cons, volume_cons] at hsize
    rw [evict_cons]
    split
    · rename_i hlarge
      have hi := hthere i (by simp)
      have hthere' : ∀ j ∈ rest, j < (h.blank i).slots.size := fun j hj => by
        rw [slots_size_blank hi]
        exact hthere j (List.mem_cons_of_mem i hj)
      have hsize' : volume (rest.map (h.blank i).slots.get) ≤ (h.blank i).size := by
        rw [map_get_blank hnot]
        change _ ≤ h.size - (h.slots.get i).length
        omega
      obtain ⟨gone, kept, hsplit, hb⟩ := ih hn hthere' hsize'
      have hgone : i ∉ gone := fun hmem => hnot (by simp [hsplit, hmem])
      exact ⟨i :: gone, kept, by rw [hsplit, List.cons_append],
        hb.cons hi hgone (by omega) hlarge⟩
    · rename_i hfits
      exact ⟨[], i :: rest, rfl, .none (.inr (by omega))⟩

/-- Of the lines in `full`, the first `n` are shown blank, each because the lines from it on were
too large together. The newest one is not among them. -/
structure Trimmed (maxSize : Nat) (full shown : List Bytes) (n : Nat) : Prop where
  shown : shown = List.replicate n [] ++ full.drop n
  newest : n ≤ full.length - 1
  needed : ∀ i < n, maxSize < volume (full.drop i)

namespace Trimmed
variable {maxSize : Nat} {full part shown : List Bytes} {m n : Nat}

theorem length_eq (ht : Trimmed maxSize full shown n) : shown.length = full.length := by
  have hnewest := ht.newest
  rw [ht.shown, List.length_append, List.length_replicate, List.length_drop]
  omega

theorem volume_eq (ht : Trimmed maxSize full shown n) : volume shown = volume (full.drop n) := by
  rw [ht.shown, volume_append, volume_blank, Nat.zero_add]

theorem drop (ht : Trimmed maxSize full shown n) (k : Nat) :
    shown.drop k = List.replicate (n - k) [] ++ full.drop (max n k) := by
  rw [ht.shown, List.drop_append, List.drop_replicate, List.length_replicate, List.drop_drop]
  congr 2
  omega

theorem concat (ht : Trimmed maxSize full shown n) (line : Bytes) :
    Trimmed maxSize (full ++ [line]) (shown ++ [line]) n := by
  have hnewest := ht.newest
  have hdrop : ∀ i ≤ n, (full ++ [line]).drop i = full.drop i ++ [line] := fun i hi =>
    List.drop_append_of_le_length (by omega)
  refine ⟨?_, by simp; omega, fun i hi => ?_⟩
  · rw [ht.shown, hdrop n (Nat.le_refl n), List.append_assoc]
  · have hlarge := ht.needed i hi
    rw [hdrop i (Nat.le_of_lt hi), volume_append]
    omega

theorem tail (ht : Trimmed maxSize full shown n) :
    Trimmed maxSize full.tail shown.tail (n - 1) := by
  have hnewest := ht.newest
  simp only [← List.drop_one]
  refine ⟨?_, by simp; omega, fun i hi => ?_⟩
  · rw [ht.drop 1, List.drop_drop]
    congr 2
    omega
  · rw [List.drop_drop]
    exact ht.needed (1 + i) (by omega)

theorem trans (hp : Trimmed maxSize full part m) (hs : Trimmed maxSize part shown n) :
    Trimmed maxSize full shown (max m n) := by
  have hfull := hp.newest
  have hpart := hs.newest
  rw [hp.length_eq] at hpart
  refine ⟨?_, by omega, fun i hi => ?_⟩
  · rw [hs.shown, hp.drop n, ← List.append_assoc, List.replicate_append_replicate]
    congr 2
    omega
  · by_cases him : i < m
    · exact hp.needed i him
    · have hlarge := hs.needed i (by omega)
      rwa [hp.drop i, volume_append, volume_blank, Nat.zero_add,
        Nat.max_eq_right (by omega)] at hlarge

end Trimmed

theorem length_view (h : History) : h.view.length = h.slots.size := by
  rw [view, List.length_map, h.perm_order.length_eq, List.length_range]

namespace Blanked
variable {gone kept rest : List Nat}

theorem order_eq (hb : Blanked h h' gone kept) : h'.order = h.order := by
  rw [order, hb.slots, hb.pos, ← order]

theorem view_eq (hb : Blanked h h' gone kept) (horder : h.order = gone ++ rest) :
    h'.view = List.replicate gone.length [] ++ h.view.drop gone.length := by
  have hn := h.nodup_order
  rw [horder, List.nodup_append] at hn
  have hgone : gone.map h'.slots.get = List.replicate gone.length [] := by
    rw [← List.map_const']
    exact List.map_congr_left fun i hi => (hb.get i).trans (if_pos hi)
  have hrest : rest.map h'.slots.get = rest.map h.slots.get :=
    List.map_congr_left fun i hi => (hb.get i).trans (if_neg fun hmem => hn.2.2 i hmem i hi rfl)
  rw [view, view, hb.order_eq, horder, List.map_append, List.map_append, hgone, hrest,
    List.drop_left' (List.length_map _)]

theorem size_eq (hb : Blanked h h' gone kept) (hs : h.Sound) (horder : h.order = gone ++ rest) :
    h'.size = volume (h.view.drop gone.length) := by
  have hsize := hb.size
  rw [hs.size, view, horder, List.map_append, volume_append] at hsize
  rw [view, horder, List.map_append, List.drop_left' (List.length_map _)]
  omega

theorem sound (hb : Blanked h h' gone kept) (hs : h.Sound) (horder : h.order = gone ++ rest) :
    h'.Sound := by
  refine ⟨?_, ?_, ?_, ?_⟩
  · rw [hb.slots, hb.room]
    exact hs.written
  · rw [hb.pos, hb.room]
    exact hs.pos
  · rw [hb.slots, hb.room, hb.pos]
    exact hs.filling
  · rw [hb.size_eq hs horder, hb.view_eq horder, volume_append, volume_blank, Nat.zero_add]

/-- What came from the last of the slots in `gone` on was too large, so from those before, too. -/
theorem needed_from (hb : Blanked h h' gone kept) (hs : h.Sound) (horder : h.order = gone ++ rest)
    {i : Nat} (hi : i < gone.length) : h.maxSize < volume (h.view.drop i) := by
  obtain rfl | ⟨before, j, rfl⟩ := gone.eq_nil_or_concat
  · exact absurd hi (by simp)
  · rw [List.concat_eq_append] at *
    have hlast := hb.needed before j rfl
    rw [hb.size_eq hs horder] at hlast
    rw [List.length_append, List.length_singleton] at hi hlast
    have hview : h.view.drop before.length =
        h.slots.get j :: h.view.drop (before.length + 1) := by
      rw [← List.drop_drop, view, horder, List.append_assoc, List.map_append,
        List.drop_left' (List.length_map _)]
      rfl
    have hle := volume_drop_le h.view (Nat.lt_succ_iff.1 hi)
    rw [hview, volume_cons] at hle
    omega

end Blanked

/-- Evicting blanks some of the oldest lines: all but the newest one or as many as it takes, and no
more. -/
theorem trimmed_evict (hs : h.Sound) {slots : List Nat} {last : Nat}
    (horder : h.order = slots ++ [last]) :
    (h.evict slots).Sound ∧ (h.evict slots).room = h.room ∧
    (h.evict slots).maxSize = h.maxSize ∧
    ∃ n, Trimmed h.maxSize h.view (h.evict slots).view n ∧
      (h.view.length ≤ n + 1 ∨ (h.evict slots).size ≤ h.maxSize) := by
  have hn := h.nodup_order
  rw [horder, List.nodup_append] at hn
  have hsize := hs.size
  rw [view, horder, List.map_append, volume_append] at hsize
  have hthere : ∀ i ∈ slots, i < h.slots.size := fun i hi => by
    have hmem : i ∈ h.order := horder ▸ List.mem_append_left _ hi
    exact List.mem_range.1 (h.perm_order.mem_iff.1 hmem)
  obtain ⟨gone, kept, rfl, hb⟩ := blanked_evict hn.1 hthere (by omega)
  rw [List.append_assoc] at horder
  have hview : h.view.length = gone.length + (kept.length + 1) := by
    rw [view, horder]
    simp
  refine ⟨hb.sound hs horder, hb.room, hb.maxSize, gone.length,
    ⟨hb.view_eq horder, by omega, fun i hi => hb.needed_from hs horder hi⟩, ?_⟩
  refine hb.enough.imp_left ?_
  rintro rfl
  rw [hview, List.length_nil]

/-- A history that holds the latest of `lines` as far as both limits allow. -/
structure Keeps (h : History) (room maxSize : Nat) (lines : List Bytes) : Prop where
  sound : h.Sound
  room_eq : h.room = room
  maxSize_eq : h.maxSize = maxSize
  trimmed : ∃ n, Trimmed maxSize (lines.rtake room) h.view n ∧
    ((lines.rtake room).length ≤ n + 1 ∨ h.size ≤ maxSize)

theorem keeps_new {room maxSize : Nat} (hroom : 0 < room) :
    Keeps { room, maxSize } room maxSize [] :=
  ⟨⟨Nat.zero_le _, hroom, fun _ => rfl, rfl⟩, rfl, rfl, 0,
    ⟨by rw [List.rtake_nil]; rfl, Nat.zero_le _, by simp⟩, .inr (Nat.zero_le _)⟩

/-- With one more line, the latest ones are those from before, without the oldest if there were
as many as there may be. -/
theorem rtake_concat {room : Nat} (hroom : 0 < room) (lines : List Bytes) (line : Bytes) :
    (lines ++ [line]).rtake room =
      (if (lines.rtake room).length < room then lines.rtake room else (lines.rtake room).tail) ++
        [line] := by
  obtain ⟨room, rfl⟩ := Nat.exists_eq_add_of_lt hroom
  rw [Nat.zero_add, List.rtake_concat_succ, ← List.drop_one]
  simp only [List.rtake, List.length_drop, List.drop_drop]
  congr 1
  split <;> congr 1 <;> omega

theorem keeps_add {room maxSize : Nat} {lines : List Bytes} (hk : Keeps h room maxSize lines)
    (line : Bytes) : Keeps (h.add line) room maxSize (lines ++ [line]) := by
  obtain ⟨hs, rfl, rfl, n, ht, -⟩ := hk
  have hpos := hs.pos
  -- the line takes its slot first, and what is blanked for it comes on top of what was blank
  have hlength := ht.length_eq
  rw [length_view] at hlength
  have hfilled : ∃ m,
      Trimmed h.maxSize ((lines ++ [line]).rtake h.room) (h.filled line).view m := by
    rw [view_filled hs line, map_staying, rtake_concat (by omega), ← hlength]
    split
    · exact ⟨n, ht.concat line⟩
    · exact ⟨n - 1, ht.tail.concat line⟩
  obtain ⟨m, hm⟩ := hfilled
  have horder := order_filled hs line
  obtain ⟨hs', hroom, hmax, k, hk, henough⟩ := trimmed_evict (sound_filled hs line) horder
  rw [add_eq, horder, List.dropLast_concat]
  refine ⟨hs', hroom, hmax, max m k, hm.trans hk, henough.imp_left fun hle => ?_⟩
  rw [hm.length_eq] at hle
  omega

theorem keeps_foldl_add {room maxSize : Nat} (hroom : 0 < room) (lines : List Bytes) :
    Keeps (lines.foldl add { room, maxSize }) room maxSize lines := by
  induction lines using List.reverseRecOn with
  | nil => exact keeps_new hroom
  | append_singleton lines line ih =>
    rw [List.foldl_append]
    exact keeps_add ih line

/-- The bytes in all slots are those in the slots that were written. -/
theorem volume_slots (hs : h.Sound) : volume ((List.range h.room).map h.slots.get) = h.size := by
  obtain ⟨unwritten, hroom⟩ := Nat.exists_eq_add_of_le hs.written
  have hblank : ((List.range unwritten).map (h.slots.size + ·)).map h.slots.get =
      List.replicate unwritten [] := by
    rw [List.map_map, List.eq_replicate_iff]
    refine ⟨by simp, fun line hline => ?_⟩
    obtain ⟨i, -, rfl⟩ := List.mem_map.1 hline
    exact h.slots.get_of_size_le (Nat.le_add_right _ _)
  rw [hroom, List.range_add, List.map_append, hblank, volume_append, volume_blank, hs.size]
  exact ((h.perm_order.map h.slots.get).map List.length).sum_nat.symm

/-- The lines of a suffix, as long as one can be that has at most `room` lines and at most `maxSize`
bytes. -/
structure LongestSuffix (room maxSize : Nat) (lines w : List Bytes) : Prop where
  suffix : w <:+ lines
  count : w.length ≤ room
  size : volume w ≤ maxSize
  longest : ∀ w', w' <:+ lines → w'.length ≤ room → volume w' ≤ maxSize → w'.length ≤ w.length

/-- What is to be kept of some lines: the longest suffix within both limits, but the newest line
even if it is too large on its own. -/
inductive Latest (room maxSize : Nat) : List Bytes → List Bytes → Prop
  | within {lines w : List Bytes} :
    (∀ newest, lines.getLast? = some newest → newest.length ≤ maxSize) →
    LongestSuffix room maxSize lines w → Latest room maxSize lines w
  | alone {older : List Bytes} {newest : Bytes} :
    maxSize < newest.length → Latest room maxSize (older ++ [newest]) [newest]

theorem Trimmed.longestSuffix {room maxSize n : Nat} {lines shown : List Bytes}
    (ht : Trimmed maxSize (lines.rtake room) shown n)
    (hfits : volume ((lines.rtake room).drop n) ≤ maxSize) :
    LongestSuffix room maxSize lines ((lines.rtake room).drop n) := by
  have hlatest : lines.rtake room <:+ lines := List.drop_suffix _ _
  have hlength : (lines.rtake room).length = lines.length - (lines.length - room) :=
    List.length_drop
  refine ⟨(List.drop_suffix _ _).trans hlatest, ?_, hfits, fun w' hsuffix hcount hsize => ?_⟩
  · rw [List.length_drop]
    omega
  · rw [List.length_drop]
    have hle := hsuffix.length_le
    have hin : w' <:+ lines.rtake room :=
      List.suffix_of_suffix_length_le hsuffix hlatest (by omega)
    by_contra hlonger
    have hlarge := ht.needed ((lines.rtake room).length - w'.length) (by omega)
    rw [← List.suffix_iff_eq_drop.1 hin] at hlarge
    omega

theorem Trimmed.latest {room maxSize n : Nat} {lines shown : List Bytes} (hroom : 0 < room)
    (ht : Trimmed maxSize (lines.rtake room) shown n)
    (henough : (lines.rtake room).length ≤ n + 1 ∨ volume shown ≤ maxSize) :
    Latest room maxSize lines ((lines.rtake room).drop n) := by
  obtain rfl | ⟨older, newest, rfl⟩ := lines.eq_nil_or_concat
  · exact .within (by simp) (ht.longestSuffix (by simp))
  · obtain ⟨room, rfl⟩ := Nat.exists_eq_add_of_lt hroom
    rw [List.concat_eq_append] at *
    have hcut : ((older ++ [newest]).rtake (0 + room + 1)).drop n =
        (older.rtake room).drop n ++ [newest] := by
      have hnewest := ht.newest
      rw [Nat.zero_add, List.rtake_concat_succ] at hnewest ⊢
      exact List.drop_append_of_le_length (by simpa using hnewest)
    have hfew : ((older ++ [newest]).rtake (0 + room + 1)).length ≤ n + 1 →
        (older.rtake room).drop n = [] := fun hle => by
      rw [Nat.zero_add, List.rtake_concat_succ, List.length_append] at hle
      exact List.drop_of_length_le (Nat.le_of_succ_le_succ hle)
    rw [ht.volume_eq, hcut, volume_append, volume_cons, volume_nil] at henough
    by_cases hlarge : maxSize < newest.length
    · have hnone := hfew (henough.resolve_right (by omega))
      rw [hcut, hnone]
      exact .alone hlarge
    · refine .within (fun line hline => ?_) (ht.longestSuffix ?_)
      · obtain rfl : newest = line := by simpa using hline
        omega
      · rw [hcut, volume_append, volume_cons, volume_nil]
        refine henough.elim (fun hle => ?_) id
        rw [hfew hle, volume_nil]
        omega

theorem Keeps.shows {room maxSize : Nat} {lines : List Bytes} (hk : Keeps h room maxSize lines) :
    h.size = volume ((List.range room).map h.slots.get) ∧
    ∃ w, Latest room maxSize lines w ∧
      h.render = (w.filter (!·.isEmpty)).flatMap (· ++ text "\n") := by
  obtain ⟨hs, rfl, rfl, n, ht, henough⟩ := hk
  have hpos := hs.pos
  rw [hs.size] at henough
  refine ⟨(volume_slots hs).symm, _, ht.latest (by omega) henough, ?_⟩
  change (h.view.filter (!·.isEmpty)).flatMap (· ++ text "\n") = _
  rw [ht.shown, List.filter_append]
  simp

/-- After any number of lines the history shows the latest of them within its limits, and its size
is that of the lines in its slots. -/
theorem shows_latest {room : Nat} (hroom : 1 ≤ room) (maxSize : Nat) (lines : List Bytes) :
    let h := lines.foldl add { room, maxSize }
    h.size = volume ((List.range room).map h.slots.get) ∧
    ∃ w, Latest room maxSize lines w ∧
      h.render = (w.filter (!·.isEmpty)).flatMap (· ++ text "\n") :=
  (keeps_foldl_add hroom lines).shows

/-- Five lines in three slots: the empty one takes a slot but is not shown. -/
theorem shows_latest_wrapped :
    let lines := [text "aaa", text "bb", text "cccc", [], text "ddddd"]
    let h := lines.foldl add { room := 3, maxSize := 9 }
    1 ≤ 3 ∧ h.size = 9 ∧ h.render = text "cccc\nddddd\n" ∧
    h.size = volume ((List.range 3).map h.slots.get) ∧
    ∃ w, Latest 3 9 lines w ∧ h.render = (w.filter (!·.isEmpty)).flatMap (· ++ text "\n") :=
  ⟨by decide, by decide, by decide, shows_latest (by decide) 9 _⟩

end History

namespace State
variable {s s' : State} {lines size : Int}

theorem exists_keeps_of_keep (hkeep : s.keep lines size = .ok s') :
    ∃ h, s'.history = some h ∧ h.Keeps lines.toNat size.toNat [] := by
  unfold keep at hkeep
  split at hkeep
  · cases hkeep
  · split at hkeep
    · cases hkeep
    · cases hkeep
      exact ⟨_, rfl, History.keeps_new (by omega)⟩

/-- Entries that are too detailed leave the history as it is. -/
theorem exists_keeps_foldl_record (hkeep : s.keep lines size = .ok s') (entries : List Entry) :
    ∃ h, (entries.foldl record s').history = some h ∧ h.Keeps lines.toNat size.toNat
      ((entries.filter (·.level ≤ historyLevel)).map Entry.line) := by
  induction entries using List.reverseRecOn with
  | nil => exact exists_keeps_of_keep hkeep
  | append_singleton entries e ih =>
    obtain ⟨h, hhistory, hkeeps⟩ := ih
    rw [List.foldl_append, List.filter_append, List.map_append]
    simp only [List.foldl_cons, List.foldl_nil, record]
    split
    · rename_i hlevel
      refine ⟨h.add e.line, by simp [hhistory], ?_⟩
      simpa [hlevel] using History.keeps_add hkeeps e.line
    · rename_i hlevel
      refine ⟨h, hhistory, ?_⟩
      simpa [hlevel] using hkeeps

/-- What a log with a history shows are the latest of the lines that were not too detailed for it,
since the history was started. -/
theorem recent_foldl_record (hkeep : s.keep lines size = .ok s') (entries : List Entry) :
    ∃ w, History.Latest lines.toNat size.toNat
        ((entries.filter (·.level ≤ historyLevel)).map Entry.line) w ∧
      (entries.foldl record s').recent = (w.filter (!·.isEmpty)).flatMap (· ++ text "\n") := by
  obtain ⟨h, hhistory, hkeeps⟩ := exists_keeps_foldl_record hkeep entries
  rw [recent, hhistory]
  exact hkeeps.shows.2

end State
end Disguise.Log
