import LayeredConfig.Edit.Document
import LayeredConfig.Proofs.TidyValues

/-! # What documents decode to

    The YAML reader puts the members of a mapping into an object one after the other, so
    objects come in order here as well: by induction on the depth that is left, along the
    entries of each mapping. Scalars are no objects, whatever their tags.

    **Main results.** `Yaml.tidy_of_read?`; `Codec.tidy_of_decode` for both notations, and
    `Edit.Document.exists_of_root`: a document is edited as a tidy object.
-/

namespace LayeredConfig

/-! ## YAML -/

namespace Yaml

theorem isLeaf_of_intValue? {i : Int} {v : Value} (h : intValue? i = some v) : v.IsLeaf := by
  obtain ⟨n, -, rfl⟩ := Option.map_eq_some_iff.mp h
  trivial

theorem isLeaf_floatValue (x : FloatScalar) : (floatValue x).IsLeaf := by
  cases x <;> trivial

theorem isLeaf_of_meaningValue? {text : List Char} {m : Meaning} {v : Value}
    (h : meaningValue? text m = some v) : v.IsLeaf := by
  cases m with
  | int i => exact isLeaf_of_intValue? h
  | float x => exact Option.some.inj h ▸ isLeaf_floatValue x
  | _ => exact Option.some.inj h ▸ trivial

/-- A scalar is no object. -/
theorem isLeaf_of_scalarValue? {p : Properties} {text : List Char} {plain : Bool} {v : Value}
    (h : scalarValue? p text plain = some v) : v.IsLeaf := by
  unfold scalarValue? at h
  dsimp only at h
  split at h
  · split at h
    · exact isLeaf_of_meaningValue? h
    · exact Option.some.inj h ▸ trivial
  · split at h
    · exact nomatch h
    split at h
    · obtain ⟨b, -, rfl⟩ := Option.map_eq_some_iff.mp h
      trivial
    split at h
    · obtain ⟨i, -, hi⟩ := Option.bind_eq_some_iff.mp h
      exact isLeaf_of_intValue? hi
    split at h
    · obtain ⟨x, -, rfl⟩ := Option.map_eq_some_iff.mp h
      exact isLeaf_floatValue x
    split at h
    · split at h
      · exact Option.some.inj h ▸ trivial
      · exact nomatch h
    split at h
    · exact isLeaf_of_meaningValue? h
    · exact Option.some.inj h ▸ trivial

/-- What every step of a fold keeps holds of what the fold ends with. -/
theorem of_foldlM {α σ : Type} {P : σ → Prop} {step : σ → α → Option σ}
    (hstep : ∀ s a t, P s → step s a = some t → P t) {items : List α} {s t : σ} (hs : P s)
    (h : items.foldlM step s = some t) : P t := by
  induction items generalizing s with
  | nil => exact Option.some.inj h ▸ hs
  | cons a rest ih =>
    obtain ⟨next, hnext, hrest⟩ := Option.bind_eq_some_iff.mp h
    exact ih (hstep s a next hs hnext) hrest

/-- **A node is tidy**, whatever is inside of it. -/
theorem tidy_of_nodeValue? {numbering : Numbering} {depth : Nat} {node : Node Nat}
    {uses : Nat} {result : Value × Nat}
    (h : nodeValue? numbering depth node uses = some result) : result.1.Tidy := by
  induction depth using Nat.strongRecOn generalizing node uses result with
  | ind depth ih =>
    unfold nodeValue? at h
    obtain ⟨⟨target, uses'⟩, -, hvalue⟩ := Option.bind_eq_some_iff.mp h
    cases target with
    | scalar p text plain =>
      obtain ⟨v, hv, hresult⟩ := Option.bind_eq_some_iff.mp hvalue
      obtain rfl := Option.some.inj hresult
      exact .leaf (isLeaf_of_scalarValue? hv)
    | «alias» number => exact nomatch hvalue
    | sequence p items =>
      dsimp only at hvalue
      split at hvalue
      · exact nomatch hvalue
      · cases depth with
        | zero => exact nomatch hvalue
        | succ depth =>
          obtain ⟨_, -, hresult⟩ := Option.bind_eq_some_iff.mp hvalue
          obtain rfl := Option.some.inj hresult
          exact .leaf trivial
    | mapping p entries =>
      dsimp only at hvalue
      split at hvalue
      · exact nomatch hvalue
      · cases depth with
        | zero => exact nomatch hvalue
        | succ depth =>
          obtain ⟨⟨fields, uses''⟩, hfields, hresult⟩ := Option.bind_eq_some_iff.mp hvalue
          obtain rfl := Option.some.inj hresult
          -- The members put in so far are in order, and what is put in is tidy.
          refine of_foldlM (P := fun done => (Value.object done.1).Tidy) ?_ Value.tidy_empty hfields
          intro done entry next hdone hnext
          obtain ⟨⟨key, _⟩, -, hmember⟩ := Option.bind_eq_some_iff.mp hnext
          obtain ⟨member, hread, hput⟩ := Option.bind_eq_some_iff.mp hmember
          obtain rfl := Option.some.inj hput
          have htidy := ih depth (Nat.lt_succ_self depth) hread
          exact hdone.insert key htidy

/-- **What is read from a YAML text is tidy.** -/
theorem tidy_of_read? {cs : List Char} {v : Value} (h : read? cs = some v) : v.Tidy := by
  unfold read? at h
  obtain ⟨tokens, -, h⟩ := Option.bind_eq_some_iff.mp h
  obtain ⟨node?, -, h⟩ := Option.bind_eq_some_iff.mp h
  cases node? with
  | none => exact Option.some.inj h ▸ .leaf trivial
  | some node =>
    obtain ⟨⟨numbered, numbering⟩, -, h⟩ := Option.bind_eq_some_iff.mp h
    obtain ⟨result, hresult, hvalue⟩ := Option.bind_eq_some_iff.mp h
    exact Option.some.inj hvalue ▸ tidy_of_nodeValue? hresult

end Yaml

/-! ## Documents -/

namespace Codec

/-- A document is decoded to what the reader of its notation finds in it. -/
theorem decode_eq_ok_iff {codec : Codec} {content : List Char} {v : Value} :
    codec.decode content = .ok v ↔ codec.read? content = some v := by
  unfold decode
  cases codec.read? content <;> simp

/-- What a document denotes is tidy. -/
theorem tidy_of_decode {codec : Codec} {content : List Char} {v : Value}
    (h : codec.decode content = .ok v) : v.Tidy := by
  have hread := decode_eq_ok_iff.mp h
  cases codec with
  | json => exact Json.tidy_of_read? hread
  | yaml => exact Yaml.tidy_of_read? hread

end Codec

namespace Edit.Document

/-- A text is edited as what it denotes, or as the empty object, if this is an object. -/
theorem decode_of_root {codec : Codec} {content : List Char} {v : Value}
    (h : root codec content = .ok v) :
    (∃ fields, v = .object fields) ∧ (v = .object [] ∨ codec.decode content = .ok v) := by
  unfold root at h
  by_cases hblank : Text.trim content = []
  · rw [if_pos hblank] at h
    obtain rfl := Except.ok.inj h
    exact ⟨⟨[], rfl⟩, .inl rfl⟩
  · rw [if_neg hblank] at h
    cases hdecode : codec.decode content with
    | error failure =>
      rw [hdecode] at h
      exact nomatch h
    | ok w =>
      rw [hdecode] at h
      cases w with
      | object fields =>
        obtain rfl := Except.ok.inj h
        exact ⟨⟨fields, rfl⟩, .inr rfl⟩
      | _ => exact nomatch h

/-- A document is edited as a tidy object. -/
theorem exists_of_root {codec : Codec} {content : List Char} {v : Value}
    (h : root codec content = .ok v) :
    ∃ fields, v = .object fields ∧ (Value.object fields).Tidy := by
  obtain ⟨⟨fields, rfl⟩, hempty | hdecode⟩ := decode_of_root h
  · exact ⟨fields, rfl, hempty ▸ Value.tidy_empty⟩
  · exact ⟨fields, rfl, Codec.tidy_of_decode hdecode⟩

end Edit.Document

end LayeredConfig
