import TreeEdit.Program.Load
import TreeEdit.Proofs.Instr.Legible
import TreeEdit.Proofs.Program.Application
import TreeEdit.Proofs.Program.Items

/-!
# The layout of finished programs

The places of texts are given out while both zones still grow, and only mean something once the
zones have been put together. They mean the right thing then, whatever was called in between and
afterwards: a finished program that fits into a memory holds all its items (`holds_makeAll`). Every
text is at its place, alone and among the texts, and what is behind them is the code.
-/

namespace TreeEdit

open Binary
open Instr (decodeRange laidOut)

/-! ## Texts among texts -/

namespace Item

/-- The place of the first text ends before that of the second one. -/
def Before : Item → Item → Prop
  | text _ ptr len, text _ ptr' _ => ptr.toNat + len.toNat ≤ ptr'.toNat
  | _, _ => True

/-- The text can be read at its place, which starts at a word boundary and lies between the two
offsets. -/
structure Sits (mem : Bytes) (lower upper : Nat) (text : String) (ptr len : UInt32) : Prop where
  aligned : ptr.toNat % Word.size = 0
  above : lower ≤ ptr.toNat
  below : ptr.toNat + len.toNat ≤ upper
  read : Binary.text mem ptr len = .ok text

theorem length_data_mod (item : Item) : item.data.length % Word.size = 0 := by
  cases item with
  | text t ptr len => exact Binary.length_padded_mod _
  | instr i | word w => rfl

variable {text : String} {ptr len : UInt32} {items : List Item} {before after : Bytes}

/-- A text whose place has been given out is found there. -/
theorem sits_of_placedAt (h : (Item.text text ptr len).PlacedAt before.length)
    (hmod : before.length % Word.size = 0)
    (hlt : before.length + (Item.text text ptr len).data.length < 2 ^ 32) :
    Sits (before ++ ((Item.text text ptr len).data ++ after)) before.length
      (before.length + (Item.text text ptr len).data.length) text ptr len := by
  have hpadded : (Item.text text ptr len).data
      = Text.Utf8.encode text ++ Binary.padding (Text.Utf8.encode text).length := rfl
  rw [hpadded] at hlt ⊢
  rw [List.length_append] at hlt ⊢
  obtain ⟨hptr, hlen⟩ := h
  -- neither the place nor the length wraps
  have hptr : ptr.toNat = before.length := by
    rw [hptr, Nat.toUInt32_eq, UInt32.toNat_ofNat']
    omega
  have hlen : len.toNat = (Text.Utf8.encode text).length := by
    rw [hlen, Nat.toUInt32_eq, UInt32.toNat_ofNat']
    omega
  refine ⟨hptr ▸ hmod, Nat.le_of_eq hptr.symm, by omega, ?_⟩
  rw [List.append_assoc]
  exact Builder.text_of_append hptr hlen

/-- All texts of placed items are found at their places, and in the order in which these were given
out. -/
theorem sits_of_placed (before after : Bytes) (h : Placed before.length items)
    (hmod : before.length % Word.size = 0)
    (hlt : before.length + (items.flatMap data).length < 2 ^ 32) :
    items.Pairwise Before ∧ ∀ text ptr len, Item.text text ptr len ∈ items →
      Sits (before ++ (items.flatMap data ++ after)) before.length
        (before.length + (items.flatMap data).length) text ptr len := by
  -- on the items: what comes before them grows by the bytes of the first one
  induction items generalizing before with
  | nil => exact ⟨.nil, nofun⟩
  | cons item items ih =>
    obtain ⟨hitem, hitems⟩ := h
    rw [List.flatMap_cons, List.length_append] at hlt
    rw [← List.length_append] at hitems
    have hmod' : (before ++ item.data).length % Word.size = 0 := by
      rw [List.length_append, Nat.add_mod, hmod, length_data_mod]
      rfl
    have hlt' : (before ++ item.data).length + (items.flatMap data).length < 2 ^ 32 := by
      rw [List.length_append]
      omega
    obtain ⟨hpairs, hsits⟩ := ih _ hitems hmod' hlt'
    have hhead (text : String) (ptr len : UInt32) (heq : item = .text text ptr len) :
        Sits (before ++ (item.data ++ (items.flatMap data ++ after))) before.length
          (before.length + item.data.length) text ptr len := by
      subst heq
      exact sits_of_placedAt hitem hmod (by omega)
    rw [List.length_append] at hsits
    constructor
    · refine .cons (fun item' hitem' => ?_) hpairs
      cases item with
      | instr i | word w => trivial
      | text t ptr len =>
        cases item' with
        | instr i | word w => trivial
        | text t' ptr' len' =>
          exact Nat.le_trans (hhead t ptr len rfl).below (hsits t' ptr' len' hitem').above
    · intro text ptr len hmem
      rw [List.flatMap_cons, List.append_assoc, List.length_append]
      rcases List.mem_cons.mp hmem with heq | hmem
      · have hsit := hhead text ptr len heq.symm
        exact ⟨hsit.aligned, hsit.above, Nat.le_trans hsit.below (by omega), hsit.read⟩
      · have hsit := hsits text ptr len hmem
        rw [List.append_assoc] at hsit
        rw [← Nat.add_assoc]
        exact ⟨hsit.aligned, Nat.le_trans (Nat.le_add_right _ _) hsit.above, hsit.below, hsit.read⟩

/-- The bytes of code without raw words are those of its instructions. -/
theorem flatMap_code (h : ∀ w, Item.word w ∉ items) :
    items.flatMap code = (items.filterMap instr?).flatMap Instr.encode ∧
      items.countP counts = (items.filterMap instr?).length := by
  induction items with
  | nil => exact ⟨rfl, rfl⟩
  | cons item items ih =>
    obtain ⟨hcode, hcount⟩ := ih fun w hw => h w (List.mem_cons_of_mem _ hw)
    rw [List.flatMap_cons, List.countP_cons, List.filterMap_cons, hcode, hcount]
    cases item with
    | text t ptr len => exact ⟨rfl, rfl⟩
    | instr i => exact ⟨rfl, rfl⟩
    | word w => exact absurd List.mem_cons_self (h w)

end Item

/-! ## Raw words -/

namespace Builder

variable {b : Builder} {text : String} {w : UInt32}

theorem word_not_mem_instr (w : UInt32) (i : Instr) : Item.word w ∉ [Item.instr i] :=
  fun h => Item.noConfusion (List.mem_singleton.mp h)

theorem word_not_mem_placing (i : UInt32 → UInt32 → Instr) :
    Item.word w ∉ b.placing text fun ptr len => [.instr (i ptr len)] := by
  intro h
  rcases List.mem_cons.mp h with heq | h
  · cases heq
  · exact word_not_mem_instr w _ h

theorem word_not_mem_idItems : Item.word w ∉ b.idItems text := by
  rw [idItems]
  split
  · exact word_not_mem_placing _
  · exact List.not_mem_nil

theorem word_mem_naming {k : UInt32 → Builder → List Item} (h : Item.word w ∈ b.naming text k) :
    ∃ id b', Item.word w ∈ k id b' := by
  rw [naming] at h
  split at h
  · exact ⟨_, _, (List.mem_append.mp h).resolve_left word_not_mem_idItems⟩
  · exact absurd h word_not_mem_idItems

end Builder

open Builder (word_mem_naming word_not_mem_instr word_not_mem_placing)

theorem Statement.eq_raw_of_word {b : Builder} {st : Statement} {w : UInt32}
    (h : Item.word w ∈ st.items b) : st = .raw w := by
  cases st with
  | setText text => exact absurd h (word_not_mem_placing .setText)
  | createText text => exact absurd h (word_not_mem_placing .createText)
  | addString text id => exact absurd h (word_not_mem_placing fun ptr len => .addString ptr len id)
  | removeAttribute name | createElement name | newListener name | updateListener name
  | removeListener name =>
    obtain ⟨id, b', h⟩ := word_mem_naming h
    exact absurd h (word_not_mem_instr w _)
  | setAttribute name value =>
    obtain ⟨n, b', h⟩ := word_mem_naming h
    obtain ⟨v, b'', h⟩ := word_mem_naming h
    exact absurd h (word_not_mem_instr w _)
  | removeSelfAndNextSiblings | replaceWith | pushFirstChild | popPushNextSibling | pop
  | appendChild => exact absurd h (word_not_mem_instr w _)
  | raw w' =>
    cases List.mem_singleton.mp h
    rfl

namespace Call

theorem eq_raw_of_word {b : Builder} {c : Call} {w : UInt32} (h : Item.word w ∈ c.items b) :
    c = .request (.statement (.raw w)) := by
  cases c with
  | intern text => exact Item.noConfusion (List.mem_singleton.mp h)
  | instr i => exact absurd h (word_not_mem_instr w i)
  | request r =>
    cases r with
    | stringId text => exact absurd h Builder.word_not_mem_idItems
    | statement st => rw [Statement.eq_raw_of_word h]

/-- Only a call for a raw word leaves one. -/
theorem raw_mem_of_word {cs : List Call} {b : Builder} {w : UInt32}
    (h : Item.word w ∈ itemsAll cs b) : .request (.statement (.raw w)) ∈ cs := by
  induction cs generalizing b with
  | nil => cases h
  | cons c cs ih =>
    rcases List.mem_append.mp h with h | h
    · rw [eq_raw_of_word h]
      exact List.mem_cons_self
    · exact List.mem_cons_of_mem _ (ih h)

end Call

/-! ## Finished programs -/

/-- The memory of an image holds the items, the texts first, and its range is that of the code. -/
structure Image.Holds (image : Image) (items : List Item) : Prop where
  start_aligned : image.start.toNat % Word.size = 0
  len_aligned : image.len.toNat % Word.size = 0
  /-- The code ends where the memory does. -/
  total : image.start.toNat + image.len.toNat = image.bytes.length
  accepted : checkRange image.bytes.length image.start image.len
    = .ok (image.start.toNat, image.start.toNat + image.len.toNat)
  /-- The range is known from the memory and its start. -/
  loaded : Image.ofMemory image.bytes image.start none = .ok image
  /-- Every text is among the texts, at its place. -/
  texts : ∀ text ptr len, .text text ptr len ∈ items →
    Item.Sits image.bytes 0 image.start.toNat text ptr len
  /-- No two places have a byte in common. -/
  apart : items.Pairwise Item.Before
  code : image.bytes.drop image.start.toNat = items.flatMap Item.code

namespace Builder

variable {b : Builder} {first : UInt32} {items : List Item}

theorem loaded_finish (h : b.finish.bytes.length < 2 ^ 32) :
    Image.ofMemory b.finish.bytes b.finish.start none = .ok b.finish := by
  have htotal := b.length_finish
  have hstart := start_finish h
  have hlen := len_finish h
  have hsmall : ¬b.finish.bytes.length > Text.Numeral.maxWord := by
    rw [Text.Numeral.maxWord]
    omega
  have hrest : b.finish.bytes.length.toUInt32 - b.finish.start = b.finish.len := by
    have hsize : b.finish.bytes.length.toUInt32.toNat = b.finish.bytes.length := by
      rw [Nat.toUInt32_eq, UInt32.toNat_ofNat']
      omega
    rw [← UInt32.toNat_inj, UInt32.toNat_sub_of_le _ _ (UInt32.le_iff_toNat_le.mpr (by omega))]
    omega
  rw [Image.ofMemory, if_neg hsmall]
  show (if _ then _ else _) = _
  rw [if_pos (by omega), hrest]

/-- What was added to an empty program is held by the finished one. -/
theorem holds_of_yields (h : Yields (startingAt first) b items)
    (hsize : b.finish.bytes.length < 2 ^ 32) : b.finish.Holds items := by
  have htotal := b.length_finish
  have hstart := start_finish hsize
  have hlen := len_finish hsize
  have hdata : b.data.toList = items.flatMap Item.data := h.data
  have hcode : b.code.toList = items.flatMap Item.code := h.code
  have hfits : ([] : Bytes).length + (items.flatMap Item.data).length < 2 ^ 32 := by
    rw [← hdata, List.length_nil]
    omega
  have hsits := Item.sits_of_placed [] (items.flatMap Item.code) h.placed rfl hfits
  have hbytes : [] ++ (items.flatMap Item.data ++ items.flatMap Item.code) = b.finish.bytes := by
    rw [← hdata, ← hcode]
    rfl
  rw [hbytes, List.length_nil, Nat.zero_add, ← hdata, ← hstart] at hsits
  constructor
  · rw [hstart]
    exact b.data.aligned
  · rw [hlen]
    exact b.code.aligned
  · rw [hstart, hlen, htotal]
  · rw [checkRange_finish hsize, hstart, hlen]
  · exact loaded_finish hsize
  · exact hsits.2
  · exact hsits.1
  · rw [hstart, ← hcode]
    exact List.drop_left

end Builder

namespace Call

open Builder (startingAt)

/-- Whatever is called, a finished program that fits into a memory is valid and needs nothing but
itself. Its range is accepted, and found again from the memory and its start; each text that was
given a place is read there, and no two places overlap. Unless raw words were emitted, it decodes to
the instructions that were emitted, in order and as many as were counted. -/
theorem holds_makeAll (first : UInt32) (cs : List Call)
    (hsize : (makeAll cs (startingAt first)).finish.bytes.length < 2 ^ 32) :
    (makeAll cs (startingAt first)).finish.Holds (itemsAll cs (startingAt first)) ∧
      ((∀ w, .request (.statement (.raw w)) ∉ cs) →
        decodeRange (makeAll cs (startingAt first)).finish.bytes
            (makeAll cs (startingAt first)).finish.start (makeAll cs (startingAt first)).finish.len
          = .ok (laidOut (makeAll cs (startingAt first)).finish.start.toNat
              ((itemsAll cs (startingAt first)).filterMap Item.instr?)) ∧
        ((itemsAll cs (startingAt first)).filterMap Item.instr?).length
          = (makeAll cs (startingAt first)).count) := by
  have hyields := yields_makeAll cs (startingAt first)
  refine ⟨Builder.holds_of_yields hyields hsize, fun hraw => ?_⟩
  obtain ⟨hcode, hcount⟩ := Item.flatMap_code fun w hw => hraw w (raw_mem_of_word hw)
  have hlisted : (makeAll cs (startingAt first)).code.toList
      = ((itemsAll cs (startingAt first)).filterMap Item.instr?).flatMap Instr.encode :=
    hyields.code.trans hcode
  constructor
  · rw [decodeRange, Builder.ofRange_finish hsize, hlisted, Builder.start_finish hsize]
    show Instr.readAll _ = _
    rw [Instr.readAll_eq_legible, Instr.decoded_eq_ok_iff, ← List.append_nil (List.flatMap _ _),
      Instr.legible_encodings, Instr.legible_of_end rfl, List.append_nil]
  · rw [hyields.count, ← hcount]
    exact (Nat.zero_add _).symm

/-- The last id goes to a text of two bytes, and the next call fails. -/
def lastId : List Call :=
  [.intern "abcde", .instr .pop, .request (.stringId "é"),
    .request (.statement (.createElement "p")), .request (.statement (.setText "")),
    .request (.statement (.createElement "é"))]

/-- The program has four instructions, and three texts that take twelve bytes. -/
theorem holds_lastId :
    (makeAll lastId (startingAt 0xFFFFFFFF)).finish.bytes.length < 2 ^ 32 ∧
      (makeAll lastId (startingAt 0xFFFFFFFF)).finish.Holds
        [.text "abcde" 0 5, .instr .pop, .text "é" 8 2, .instr (.addString 8 2 0xFFFFFFFF),
          .text "" 12 0, .instr (.setText 12 0), .instr (.createElement 0xFFFFFFFF)] ∧
      decodeRange (makeAll lastId (startingAt 0xFFFFFFFF)).finish.bytes 12 40
        = .ok [(12, .pop), (16, .addString 8 2 0xFFFFFFFF), (32, .setText 12 0),
          (44, .createElement 0xFFFFFFFF)] := by
  have hsize : (makeAll lastId (startingAt 0xFFFFFFFF)).finish.bytes.length < 2 ^ 32 := by
    decide +kernel
  have hraw : ∀ w, .request (.statement (.raw w)) ∉ lastId := by
    intro w h
    simp [lastId] at h
  obtain ⟨hholds, hdecodes⟩ := holds_makeAll 0xFFFFFFFF lastId hsize
  exact ⟨hsize, hholds, (hdecodes hraw).1⟩

end Call

end TreeEdit
