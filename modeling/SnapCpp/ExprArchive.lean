import SnapCpp.ExprSerialize

/-!
Programs that come back from an archive. Whatever `compile()` makes is read back as a tree of the
same shape, types and names, in which a floating point is what its text reads as and a string is
what `fromUtf8()` makes of its bytes. So the program comes back unchanged exactly if each of its
floating points is the number that its text reads as, and none of its strings starts with a byte
order mark.
-/
namespace SnapCpp.Expr

open SnapCpp.Parser (Token)
open CassValue CassInteger

theorem TreeType.ofNumber_number {t : TreeType} (h : ∀ n, t ≠ .other n) :
    ofNumber t.number = t := by
  cases t with
  | other n => exact absurd rfl (h n)
  | _ => rfl

theorem TreeType.number_mem {t : TreeType} (h : ∀ n, t ≠ .other n) :
    0 ≤ t.number ∧ t.number < 36 := by
  cases t with
  | other n => exact absurd rfl (h n)
  | _ => decide

theorem treeType_ne_other (type : NodeType) (n : ℤ) : type.treeType ≠ .other n := by
  cases type with
  | unary op | binary op => cases op <;> exact TreeType.noConfusion
  | _ => exact TreeType.noConfusion

theorem toInt_number {n : ℤ} (h : 0 ≤ n ∧ n < 36) : toInt (QNumber.number n) = n := by
  have hint : QNumber.IsInt64 n := ⟨by omega, by omega⟩
  rw [toInt, QNumber.toLongLong_number hint, Option.filter, if_pos (by simp; omega)]
  rfl

theorem toInt64_number (v : Int64) : toInt64 (QNumber.number v.toInt) = v := by
  have hint : QNumber.IsInt64 v.toInt := ⟨v.le_toInt, v.toInt_lt⟩
  rw [toInt64, QNumber.toLongLong_number hint, Option.getD_some, Int64.ofInt_toInt]

section Literals

variable (q : Doubles) {v : Variable} {type : NodeType}

def NodeType.reread : NodeType → NodeType
  | floatingPoint text => .floatingPoint (q.arg (q.toDouble text))
  | string s => .string (Utf.fromUtf8 (Utf.toUtf8 s))
  | type => type

def NodeType.Keeps : NodeType → Prop
  | floatingPoint text => q.toDouble (q.arg (q.toDouble text)) = q.toDouble text
  | string s => s.head? ≠ some 0xFEFF
  | _ => True

theorem setDouble_ok (d : UInt64) : ∃ small, ({} : Variable).setDouble d =
    .ok { fType := .double, fValue := ⟨Kind.encode .uint64 d, small⟩ } := by
  obtain ⟨small, hset⟩ := Kind.set_eq ⟨[], by decide⟩ .uint64 d
  refine ⟨small, ?_⟩
  have hdouble : setDoubleValue ⟨[], by decide⟩ d = .ok ⟨Kind.encode .uint64 d, small⟩ := hset
  rw [Variable.setDouble, hdouble]
  rfl

/-- A text and what is left of it without the mark have different bytes if there is a mark. -/
theorem toUtf8_fromUtf8_toUtf8_iff (s : QString) :
    Utf.toUtf8 (Utf.fromUtf8 (Utf.toUtf8 s)) = Utf.toUtf8 s ↔ s.head? ≠ some 0xFEFF := by
  have hunit : Utf.IsUnit Utf.byteOrderMark := ⟨by decide, by decide⟩
  have hbytes : Utf.toUtf8 (Utf.fromUtf8 (Utf.toUtf8 s)) =
      Utf.utf8 (Utf.skipMark (Utf.chars s)) := by
    rw [Utf.toUtf8, Utf.toUtf8, Utf.fromUtf8_utf8, Utf.chars_utf16]
  rw [hbytes, Utf.toUtf8]
  cases hchars : Utf.chars s with
  | nil =>
    have hs : s = [] := by
      by_contra hne
      exact Utf.chars_ne_nil hne hchars
    simp [hs, Utf.skipMark]
  | cons c rest =>
    rw [Utf.skipMark]
    split_ifs with hmark
    · subst hmark
      obtain ⟨more, rfl, -⟩ := Utf.chars_eq_cons hunit hchars
      refine iff_of_false (fun heq => ?_) (fun h => h rfl)
      have hlength := congrArg List.length heq
      have hcons : Utf.utf8 (Utf.byteOrderMark :: rest) = [0xEF, 0xBB, 0xBF] ++ Utf.utf8 rest := rfl
      rw [hcons, List.length_append] at hlength
      exact absurd hlength (by simp)
    · refine iff_of_true rfl (fun hhead => hmark ?_)
      obtain ⟨more, rfl⟩ := List.head?_eq_some_iff.mp hhead
      cases more with
      | nil => exact (List.cons.inj hchars).1.symm
      | cons u more =>
        have hhigh : ¬ (Utf.isHigh 0xFEFF && Utf.isLow u) = true := by
          rw [show Utf.isHigh 0xFEFF = false from rfl, Bool.false_and]
          exact Bool.false_ne_true
        rw [Utf.chars, if_neg hhigh] at hchars
        exact (List.cons.inj hchars).1.symm

theorem length_fromUtf8_toUtf8_le (s : QString) :
    (Utf.toUtf8 (Utf.fromUtf8 (Utf.toUtf8 s))).length ≤ (Utf.toUtf8 s).length := by
  rw [Utf.toUtf8, Utf.toUtf8, Utf.fromUtf8_utf8, Utf.chars_utf16, Utf.utf8, Utf.utf8]
  exact ((Utf.skipMark_sublist (Utf.chars s)).flatMap _).length_le

def NodeType.tags : NodeType → List Tag
  | boolean b => [.value (ascii "int") (QNumber.number (if b then 1 else 0))]
  | integer n => [.value (ascii "int") (QNumber.number n.toInt)]
  | floatingPoint text => [.value (ascii "flt") (q.arg (q.toDouble text))]
  | string s => [.value (ascii "str") (Utf.fromUtf8 (Utf.toUtf8 s))]
  | _ => []

theorem ofResult_ok {α : Type} {r : Result α} {a : α} (h : r = .ok a) : ofResult r = .ok a := by
  rw [h]
  rfl

theorem literal_boolean {b : Bool} (h : (NodeType.boolean b).literal q = .ok v) :
    boolValueOrNull v.fValue 0 false = .ok b := by
  obtain ⟨htype, hset⟩ := setValue_bool h
  obtain ⟨htrue, -⟩ := boolValueOrNull_set hset htype
  simp only [Variable.isTrue, htype] at htrue
  cases hb : boolValueOrNull v.fValue 0 false with
  | error e =>
    rw [hb] at htrue
    cases htrue
  | ok c =>
    rw [hb] at htrue
    cases htrue
    rfl

theorem writeLiteral_eq (h : type.literal q = .ok v) :
    writeLiteral q type.treeType v = .ok (type.tags q) := by
  cases type with
  | boolean b =>
    simp only [NodeType.treeType, writeLiteral, ofResult_ok (literal_boolean q h)]
    rfl
  | integer n =>
    obtain ⟨-, hdata⟩ := setValue_integer h
    have hvalue : safeInt64Value v.fValue 0 0 = .ok n :=
      (decodes_of_data hdata).safeValue (0 : Int64)
    simp only [NodeType.treeType, writeLiteral, ofResult_ok hvalue]
    rfl
  | floatingPoint text =>
    obtain ⟨small, hset⟩ := setDouble_ok (q.toDouble text)
    obtain rfl := Except.ok.inj (hset.symm.trans h)
    have hdecodes : Decodes .uint64 ⟨Kind.encode .uint64 (q.toDouble text), small⟩ 0
        (q.toDouble text) := decodes_of_data rfl
    have hvalue : safeUInt64Value ⟨Kind.encode .uint64 (q.toDouble text), small⟩ 0 0 =
        .ok (q.toDouble text) := hdecodes.safeValue (0 : UInt64)
    simp only [NodeType.treeType, writeLiteral, ofResult_ok hvalue]
    rfl
  | string s =>
    obtain ⟨-, hdata⟩ := setValue_string h
    simp only [NodeType.treeType, writeLiteral, stringValue, hdata]
    rfl
  | unary op | binary op => cases op <;> rfl
  | _ => rfl

theorem setString_ok {s : QString} (h : (Utf.toUtf8 s).length ≤ bufferMaxSize) :
    ∃ small, ({} : Variable).setValue (.string s) =
      .ok { fType := .string, fValue := ⟨Utf.toUtf8 s, small⟩ } := by
  have hlength : (Buffer.clear ⟨[], by decide⟩).data.length + (Utf.toUtf8 s).length ≤
      bufferMaxSize := by
    rw [Buffer.clear, List.length_nil, zero_add]
    exact h
  refine ⟨h.trans_lt (by decide), ?_⟩
  rw [Variable.setValue, setStringValue, Buffer.append, dif_pos hlength]
  rfl

theorem length_of_setString {s : QString} (h : ({} : Variable).setValue (.string s) = .ok v) :
    (Utf.toUtf8 s).length ≤ bufferMaxSize := by
  obtain ⟨value, hset, -⟩ := bind_eq_ok h
  rw [setStringValue, Buffer.append] at hset
  split_ifs at hset with hlength
  rwa [Buffer.clear, List.length_nil, zero_add] at hlength

def NodeType.fields (children : List Node) (type : NodeType) : Fields where
  type := type.treeType.number
  name := type.name
  valueInt := match type with
    | boolean b => if b then 1 else 0
    | integer n => n
    | _ => 0
  valueDbl := match type with
    | floatingPoint text => q.toDouble (q.arg (q.toDouble text))
    | _ => 0
  valueStr := match type with
    | string s => Utf.fromUtf8 (Utf.toUtf8 s)
    | _ => []
  children := children

theorem literal_fields (h : type.literal q = .ok v) (hmade : type ≠ .unary .identity)
    (children : List Node) : ∃ v', (type.reread q).literal q = .ok v' ∧
      (type.fields q children).literal = .ok v' := by
  cases type with
  | boolean b => exact ⟨v, h, by cases b <;> exact ofResult_ok h⟩
  | integer n => exact ⟨v, h, ofResult_ok h⟩
  | floatingPoint text =>
    obtain ⟨small, hset⟩ := setDouble_ok (q.toDouble (q.arg (q.toDouble text)))
    exact ⟨_, hset, ofResult_ok hset⟩
  | string s =>
    have hlength := (length_fromUtf8_toUtf8_le s).trans (length_of_setString h)
    obtain ⟨small, hset⟩ := setString_ok hlength
    exact ⟨_, hset, ofResult_ok (dif_pos small)⟩
  | unary op =>
    cases op with
    | identity => exact absurd rfl hmade
    | _ => exact ⟨_, rfl, rfl⟩
  | binary op => cases op <;> exact ⟨_, rfl, rfl⟩
  | _ => exact ⟨_, rfl, rfl⟩

theorem encode_uint64_inj {d d' : UInt64} (h : Kind.encode .uint64 d = Kind.encode .uint64 d') :
    d = d' := by
  obtain ⟨small, -⟩ := setDouble_ok d
  have hd : Decodes .uint64 ⟨Kind.encode .uint64 d, small⟩ 0 d := decodes_of_data rfl
  have hd' : Decodes .uint64 ⟨Kind.encode .uint64 d, small⟩ 0 d' := decodes_of_data h
  exact Except.ok.inj ((hd.safeValue (0 : UInt64)).symm.trans (hd'.safeValue (0 : UInt64)))

/-- Whether a literal comes back. -/
theorem literal_reread_iff {v' : Variable} (h : type.literal q = .ok v)
    (h' : (type.reread q).literal q = .ok v') : v' = v ↔ type.Keeps q := by
  have hsame (heq : type.reread q = type) : v' = v := by
    rw [heq] at h'
    exact Except.ok.inj (h'.symm.trans h)
  cases type with
  | floatingPoint text =>
    obtain ⟨_, hset⟩ := setDouble_ok (q.toDouble text)
    obtain ⟨_, hset'⟩ := setDouble_ok (q.toDouble (q.arg (q.toDouble text)))
    obtain rfl := Except.ok.inj (hset.symm.trans h)
    obtain rfl := Except.ok.inj (hset'.symm.trans h')
    simp only [Variable.mk.injEq, Buffer.mk.injEq, true_and]
    exact ⟨encode_uint64_inj, fun hkeeps => congrArg (Kind.encode .uint64) hkeeps⟩
  | string s =>
    obtain ⟨_, hset⟩ := setString_ok (length_of_setString h)
    obtain ⟨_, hset'⟩ := setString_ok (length_of_setString h')
    obtain rfl := Except.ok.inj (hset.symm.trans h)
    obtain rfl := Except.ok.inj (hset'.symm.trans h')
    simp only [Variable.mk.injEq, Buffer.mk.injEq, true_and]
    exact toUtf8_fromUtf8_toUtf8_iff s
  | _ => exact iff_of_true (hsame rfl) trivial

end Literals

section Trees

mutual

def ExprNode.All (P : NodeType → Prop) : ExprNode → Prop
  | .node type children => P type ∧ ExprNode.AllOf P children

def ExprNode.AllOf (P : NodeType → Prop) : List ExprNode → Prop
  | [] => True
  | child :: rest => child.All P ∧ ExprNode.AllOf P rest

end

def Made (type : NodeType) : Prop := type ≠ .unary .identity

variable (q : Doubles)

mutual

def ExprNode.reread : ExprNode → ExprNode
  | .node type children => .node (type.reread q) (ExprNode.rereadAll children)

def ExprNode.rereadAll : List ExprNode → List ExprNode
  | [] => []
  | child :: rest => child.reread :: ExprNode.rereadAll rest

end

theorem readTags_append (a b : List Tag) (f : Fields) :
    readTags q (a ++ b) f = readTags q a f >>= readTags q b := by
  induction a generalizing f with
  | nil => rfl
  | cons tag rest ih =>
    rw [List.cons_append, readTags, readTags]
    cases readTag q tag f with
    | error e => rfl
    | ok f' => exact ih f'

def NodeType.head (type : NodeType) : List Tag :=
  .value (ascii "type") (QNumber.number type.treeType.number) ::
    (if type.name = [] then [] else [.value (ascii "name") type.name]) ++ type.tags q

theorem readTags_head (type : NodeType) :
    readTags q (type.head q) {} = .ok (type.fields q []) := by
  have htype : ∀ f : Fields, f.readValue q (ascii "type") (QNumber.number type.treeType.number) =
      .ok { f with type := type.treeType.number } := by
    intro f
    rw [Fields.readValue, if_pos rfl, toInt_number (TreeType.number_mem (treeType_ne_other type))]
    rfl
  have hname : ∀ f : Fields, f.name = [] →
      readTags q (if type.name = [] then [] else [.value (ascii "name") type.name]) f =
        .ok { f with name := type.name } := by
    intro f hf
    split_ifs with hnil
    · rw [hnil, ← hf]
      rfl
    · rfl
  have hvalue : readTags q (type.tags q) { ({} : Fields) with
      type := type.treeType.number, name := type.name } = .ok (type.fields q []) := by
    cases type with
    | boolean b => cases b <;> rfl
    | integer n =>
      rw [NodeType.tags, readTags, readTag, Fields.readValue]
      simp only [toInt64_number]
      rfl
    | _ => rfl
  rw [NodeType.head, List.cons_append, readTags, readTag, htype]
  change readTags q _ _ = _
  rw [readTags_append, hname _ rfl]
  exact hvalue

mutual

theorem exists_write : ∀ (n : ExprNode) (t : Node), n.All Made → built q n = .ok t →
    ∃ tag t', t.write q = .ok tag ∧ built q (n.reread q) = .ok t' ∧
      ∀ f : Fields, readTag q tag f = .ok { f with children := f.children ++ [t'] }
  | .node type children, t => by
    intro hmade hbuilt
    rw [built] at hbuilt
    obtain ⟨v, hliteral, hbuilt⟩ := bind_eq_ok hbuilt
    obtain ⟨ts, hchildren, hbuilt⟩ := bind_eq_ok hbuilt
    obtain rfl := Except.ok.inj hbuilt
    obtain ⟨tags, ts', hwrite, hback, hread⟩ := exists_writeAll children ts hmade.2 hchildren
    obtain ⟨v', hliteral', hfields⟩ := literal_fields q hliteral hmade.1 ts'
    have htype : (type.reread q).treeType = type.treeType := by cases type <;> rfl
    have hname : (type.reread q).name = type.name := by cases type <;> rfl
    refine ⟨.node (type.head q ++ tags), .mk type.treeType type.name v' ts', ?_, ?_, fun f => ?_⟩
    · rw [Node.write, writeLiteral_eq q hliteral, hwrite]
      rfl
    · rw [ExprNode.reread, built, hliteral', hback, htype, hname]
      rfl
    · have hinside : readTags q (type.head q ++ tags) {} = .ok (type.fields q ts') := by
        rw [readTags_append, readTags_head]
        exact hread (type.fields q [])
      have hnode : (type.fields q ts').node = .ok (.mk type.treeType type.name v' ts') := by
        rw [Fields.node, hfields]
        have hofNumber := TreeType.ofNumber_number (treeType_ne_other type)
        change Except.ok (Node.mk (.ofNumber type.treeType.number) _ _ _) = _
        rw [hofNumber]
        rfl
      rw [readTag, hinside]
      change ((type.fields q ts').node >>= _) = _
      rw [hnode]
      rfl

theorem exists_writeAll : ∀ (children : List ExprNode) (ts : List Node),
    ExprNode.AllOf Made children → builtAll q children = .ok ts →
    ∃ tags ts', Node.writeAll q ts = .ok tags ∧
      builtAll q (ExprNode.rereadAll q children) = .ok ts' ∧
      ∀ f : Fields, readTags q tags f = .ok { f with children := f.children ++ ts' }
  | [], ts => by
    intro _ hbuilt
    obtain rfl := Except.ok.inj hbuilt
    exact ⟨[], [], rfl, rfl, fun f => by rw [List.append_nil]; rfl⟩
  | child :: rest, ts => by
    intro hmade hbuilt
    rw [builtAll] at hbuilt
    obtain ⟨t, hchild, hbuilt⟩ := bind_eq_ok hbuilt
    obtain ⟨more, hrest, hbuilt⟩ := bind_eq_ok hbuilt
    obtain rfl := Except.ok.inj hbuilt
    obtain ⟨tag, t', hwrite, hback, hread⟩ := exists_write child t hmade.1 hchild
    obtain ⟨tags, ts', hwrites, hbacks, hreads⟩ := exists_writeAll rest more hmade.2 hrest
    refine ⟨tag :: tags, t' :: ts', ?_, ?_, fun f => ?_⟩
    · rw [Node.writeAll, hwrite, hwrites]
      rfl
    · rw [ExprNode.rereadAll, builtAll, hback, hbacks]
      rfl
    · rw [readTags, hread]
      change readTags q tags _ = _
      rw [hreads, List.append_assoc, List.singleton_append]

end

mutual

/-- The tree that is read back is the tree that was written if all its literals are. -/
theorem built_reread_iff : ∀ (n : ExprNode) (t t' : Node), built q n = .ok t →
    built q (n.reread q) = .ok t' → (t' = t ↔ n.All (NodeType.Keeps q))
  | .node type children, t, t' => by
    intro h h'
    rw [built] at h
    obtain ⟨v, hliteral, h⟩ := bind_eq_ok h
    obtain ⟨ts, hchildren, h⟩ := bind_eq_ok h
    obtain rfl := Except.ok.inj h
    rw [ExprNode.reread, built] at h'
    obtain ⟨v', hliteral', h'⟩ := bind_eq_ok h'
    obtain ⟨ts', hchildren', h'⟩ := bind_eq_ok h'
    obtain rfl := Except.ok.inj h'
    have htype : (type.reread q).treeType = type.treeType := by cases type <;> rfl
    have hname : (type.reread q).name = type.name := by cases type <;> rfl
    rw [htype, hname, Node.mk.injEq, literal_reread_iff q hliteral hliteral',
      builtAll_rereadAll_iff children ts ts' hchildren hchildren', ExprNode.All]
    simp only [true_and]

theorem builtAll_rereadAll_iff : ∀ (children : List ExprNode) (ts ts' : List Node),
    builtAll q children = .ok ts → builtAll q (ExprNode.rereadAll q children) = .ok ts' →
      (ts' = ts ↔ ExprNode.AllOf (NodeType.Keeps q) children)
  | [], ts, ts' => by
    intro h h'
    obtain rfl := Except.ok.inj h
    obtain rfl := Except.ok.inj h'
    exact iff_of_true rfl trivial
  | child :: rest, ts, ts' => by
    intro h h'
    rw [builtAll] at h
    obtain ⟨t, hchild, h⟩ := bind_eq_ok h
    obtain ⟨more, hrest, h⟩ := bind_eq_ok h
    obtain rfl := Except.ok.inj h
    rw [ExprNode.rereadAll, builtAll] at h'
    obtain ⟨t', hchild', h'⟩ := bind_eq_ok h'
    obtain ⟨more', hrest', h'⟩ := bind_eq_ok h'
    obtain rfl := Except.ok.inj h'
    rw [List.cons.injEq, built_reread_iff child t t' hchild hchild',
      builtAll_rereadAll_iff rest more more' hrest hrest', ExprNode.AllOf]

end

end Trees

section Compiled

variable {P : NodeType → Prop}

theorem allOf_append {a b : List ExprNode} (ha : ExprNode.AllOf P a) (hb : ExprNode.AllOf P b) :
    ExprNode.AllOf P (a ++ b) := by
  induction a with
  | nil => exact hb
  | cons child rest ih => exact ⟨ha.1, ih ha.2⟩

mutual

theorem allOf_leveled : ∀ n : ExprNode, n.All P → ExprNode.AllOf P (leveled n)
  | .node type children => by
    intro h
    by_cases hlist : type = .list
    · subst hlist
      rw [leveled]
      exact allOf_levelChildren children h.2
    · rw [leveled]
      · exact ⟨h, trivial⟩
      · exact hlist

theorem allOf_levelChildren : ∀ children : List ExprNode, ExprNode.AllOf P children →
    ExprNode.AllOf P (levelChildren children)
  | [] => fun h => h
  | child :: rest => fun h => by
    rw [levelChildren]
    exact allOf_append (allOf_leveled child h.1) (allOf_levelChildren rest h.2)

end

theorem all_levelChild {n : ExprNode} (h : n.All P) : (levelChild n).All P := by
  obtain ⟨type, children⟩ := n
  exact ⟨h.1, allOf_levelChildren children h.2⟩

theorem made_node (e : Expression) : e.node.All Made := by
  fun_induction Expression.node with
  | case6 e ih => exact ih
  | case7 op e hop ih => exact ⟨fun h => hop (NodeType.unary.inj h), ih, trivial⟩
  | case8 op l r ihl ihr => exact ⟨NodeType.noConfusion, ihl, ihr, trivial⟩
  | case9 c x y ihc ihx ihy => exact ⟨NodeType.noConfusion, ihc, ihx, ihy, trivial⟩
  | case10 name e ih => exact ⟨NodeType.noConfusion, ih, trivial⟩
  | case11 l e ihl ihe => exact ⟨NodeType.noConfusion, ihl, ihe, trivial⟩
  | case12 l ih => exact all_levelChild ih
  | case13 name l ih => exact ⟨NodeType.noConfusion, allOf_leveled l.node ih⟩
  | case15 l e hname ih => exact ih
  | case16 l e ih => exact ih
  | _ => exact ⟨NodeType.noConfusion, trivial⟩

theorem made_of_compiles {tokens : List Token} {n : ExprNode} (h : Compiles tokens (some n)) :
    n.All Made := by
  obtain ⟨data, hdata, hwritten, hnone⟩ := exists_compiles tokens
  obtain rfl := hdata.unique h
  by_cases hderivable : Parser.Derivable grammar [.choices .expr] tokens
  · obtain ⟨e, -, -, -, hnode⟩ := hwritten hderivable
    obtain rfl := Option.some.inj hnode
    exact made_node e
  · cases hnone hderivable

end Compiled

def ComesBack (q : Doubles) (debug : Bool) (t : Node) : Prop :=
  ∃ t', (serialize q t >>= unserialize q debug) = .ok t' ∧ t' = t ∧
    ∀ (F : Type) (ops : Operations Variable Failure F) (result : Variable),
      t'.execute ops result = t.execute ops result

theorem unserialize_serialize {q : Doubles} {n : ExprNode} {t : Node} (debug : Bool)
    (hmade : n.All Made) (hbuilt : built q n = .ok t) :
    ∃ t', built q (n.reread q) = .ok t' ∧ (serialize q t >>= unserialize q debug) = .ok t' := by
  obtain ⟨tag, t', hwrite, hback, hread⟩ := exists_write q n t hmade hbuilt
  refine ⟨t', hback, ?_⟩
  rw [serialize, hwrite]
  change unserialize q debug [tag] = _
  rw [unserialize, load, readTags, hread]
  cases debug <;> rfl

theorem comesBack_iff_of_made {q : Doubles} {n : ExprNode} {t : Node} (debug : Bool)
    (hmade : n.All Made) (hbuilt : built q n = .ok t) :
    ComesBack q debug t ↔ n.All (NodeType.Keeps q) := by
  obtain ⟨t', hback, hread⟩ := unserialize_serialize debug hmade hbuilt
  rw [← built_reread_iff q n t t' hbuilt hback]
  constructor
  · rintro ⟨t'', hread', hsame, -⟩
    exact (Except.ok.inj (hread.symm.trans hread')).trans hsame
  · rintro rfl
    exact ⟨t', hread, rfl, fun F ops result => rfl⟩

/-- A compiled program comes back exactly if each of its literals does. -/
theorem comesBack_iff {q : Doubles} {tokens : List Token} {n : ExprNode} {t : Node}
    (debug : Bool) (hcompiles : Compiles tokens (some n)) (hbuilt : built q n = .ok t) :
    ComesBack q debug t ↔ n.All (NodeType.Keeps q) :=
  comesBack_iff_of_made debug (made_of_compiles hcompiles) hbuilt

def exactDoubles : Doubles where
  arg d := QString.decimal d.toNat
  toDouble text := UInt64.ofNat (QNumber.readDigits text)

theorem exactDoubles_exact (d : UInt64) : exactDoubles.toDouble (exactDoubles.arg d) = d := by
  change UInt64.ofNat (QNumber.readDigits (QString.decimal d.toNat)) = d
  rw [QNumber.readDigits_decimal, UInt64.ofNat_toNat]

/-- `x := 3 + "a"`. -/
def sumToVariable : Expression :=
  .assignment (.identifier (ascii "x")) (.binary .add (.integer 3) (.string (ascii "a")))

theorem comesBack_sum :
    ∃ t, built exactDoubles sumToVariable.node = .ok t ∧ ComesBack exactDoubles false t := by
  have hparses : sumToVariable.Parses :=
    ⟨⟨_, rfl⟩, ⟨⟨trivial, by decide⟩, trivial, by decide⟩, by decide⟩
  have hkeeps : (ascii "a").head? ≠ some 0xFEFF := by decide
  exact ⟨_, rfl, (comesBack_iff false (compiles_tokens hparses (by decide)) rfl).mpr
    ⟨trivial, ⟨trivial, ⟨trivial, trivial⟩, ⟨hkeeps, trivial⟩, trivial⟩, trivial⟩⟩

/-- A string that is a byte order mark is read back as an empty one. -/
theorem mark_not_back :
    ¬ ∀ (q : Doubles) (debug : Bool) (tokens : List Token) (n : ExprNode) (t : Node),
      (∀ d, q.toDouble (q.arg d) = d) → Compiles tokens (some n) → built q n = .ok t →
      ComesBack q debug t := by
  intro hall
  have hcompiles : Compiles [.string [0xFEFF]] (some (.node (.string [0xFEFF]) [])) :=
    compiles_tokens (e := .string [0xFEFF]) trivial (by decide)
  have hback := hall exactDoubles false _ _ _ exactDoubles_exact hcompiles rfl
  have hkeeps := (comesBack_iff_of_made false (made_of_compiles hcompiles) rfl).mp hback
  exact hkeeps.1 rfl

end SnapCpp.Expr
