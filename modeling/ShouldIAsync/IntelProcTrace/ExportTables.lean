import ShouldIAsync.IntelProcTrace.ExportRows

/-!
# `trace_end`

The insertions fill the tables with the rows of the buffers, cast to the types of the columns, or
fail on a buffer that its table cannot hold (`Inserts`, `insertAll_ok`, `insertAll_of_inserts`);
dropping the unused tables never fails and drops no row (`Dropped`).
-/

namespace ShouldIAsync.IntelProcTrace.Export

variable {o : Options} {b : Buffers} {cs : List Callback} {t : Table}

/-! ## Inserting -/

variable {db db' : Db} {data rows : List Row} {ts : List Table}

/-- A table with more rows. -/
def Relation.add (r : Relation) (rows : List Row) : Relation := { r with rows := r.rows ++ rows }

theorem map_add_nil (x : Option Relation) : x.map (·.add []) = x := by
  cases x with
  | none => rfl
  | some r =>
    show some { r with rows := r.rows ++ [] } = some r
    rw [List.append_nil]

/-! A cast leaves a value of the type -/

/-- A number that has been cast is of its type. -/
theorem castNum_castNum {n : ℤ} {type : ColumnType} {v : Value} (h : castNum n type = some v) :
    castCell type v = some v := by
  cases type with
  | boolean =>
    obtain rfl := Option.some.inj h
    by_cases hn : n = 0 <;> simp [castCell, castNum, hn]
  | varchar =>
    obtain rfl := Option.some.inj h
    rfl
  | _ =>
    have hn := h
    unfold castNum at hn
    rw [Option.ite_none_right_eq_some] at hn
    obtain ⟨-, heq⟩ := hn
    obtain rfl := Option.some.inj heq
    exact h

/-- A cast value is cast to itself. -/
theorem castCell_castCell {type : ColumnType} {v v' : Value} (h : castCell type v = some v') :
    castCell type v' = some v' := by
  cases v with
  | none =>
    obtain rfl := Option.some.inj h
    rfl
  | num n => exact castNum_castNum h
  | float q =>
    cases type with
    | varchar =>
      obtain rfl := Option.some.inj h
      rfl
    | boolean => cases h
    | _ => exact castNum_castNum h
  | str s =>
    have hs := h
    unfold castCell at hs
    rw [Option.ite_none_right_eq_some] at hs
    obtain ⟨-, heq⟩ := hs
    obtain rfl := Option.some.inj heq
    exact h

theorem castRow_castRow {cols : List Column} {x y : Row} (h : castRow cols x = some y) :
    castRow cols y = some y := by
  induction cols generalizing x y with
  | nil =>
    obtain rfl := Option.some.inj h
    rfl
  | cons col cols ih =>
    cases x with
    | nil =>
      obtain rfl := Option.some.inj h
      rfl
    | cons v x =>
      obtain ⟨v', hv, h⟩ := Option.bind_eq_some_iff.mp h
      obtain ⟨x', hx, rfl⟩ := Option.map_eq_some_iff.mp h
      show (castCell col.2 v').bind (fun v => (castRow cols x').map fun x => v :: x) = _
      rw [castCell_castCell hv, ih hx]
      rfl

theorem mapM_eq_some_iff {α β : Type*} {f : α → Option β} {l : List α} {l' : List β} :
    l.mapM f = some l' ↔ l.map f = l'.map some := by
  induction l generalizing l' with
  | nil => cases l' <;> simp
  | cons a l ih =>
    rw [List.mapM_cons, List.map_cons]
    cases l' with
    | nil =>
      cases f a with
      | none => simp
      | some b => cases l.mapM f <;> simp
    | cons a' l' =>
      rw [List.map_cons, List.cons.injEq, ← ih]
      cases f a with
      | none => simp
      | some b => cases l.mapM f <;> simp

/-! Rows of one width need no filling up -/

/-- Rows of one length are as wide as each of them. -/
theorem dataFrameWidth_eq {n : Nat} (h : ∀ x ∈ data, x.length = n) (hne : data ≠ []) :
    dataFrameWidth data = n := by
  induction data with
  | nil => exact absurd rfl hne
  | cons x data ih =>
    show max x.length (dataFrameWidth data) = n
    rw [h x List.mem_cons_self]
    by_cases hd : data = []
    · rw [hd]
      exact Nat.max_zero n
    · rw [ih (fun y hy => h y (List.mem_cons_of_mem x hy)) hd, Nat.max_self]

/-- Rows of one width need no filling up. -/
theorem dataFrame_eq {n : Nat} (h : ∀ x ∈ data, x.length = n) : dataFrame data = data := by
  unfold dataFrame
  refine (List.map_congr_left fun x hx => ?_).trans (List.map_id data)
  rw [dataFrameWidth_eq h (List.ne_nil_of_mem hx), h x hx, Nat.sub_self]
  exact List.append_nil x

/-- The table takes `data`, which becomes `rows`. -/
def Inserts (db : Db) (t : Table) (data rows : List Row) : Prop :=
  data = [] ∧ rows = [] ∨ ∃ r, db.tables t = some r ∧ dataFrameWidth data = r.columns.length ∧
    (dataFrame data).mapM (castRow r.columns) = some rows ∧
    (t.hasKey = true → KeysDiffer (r.rows ++ rows))

/-- What an insertion that does not fail leaves. -/
theorem insertData_ok (h : insertData t data db = .ok db') :
    ∃ rows, Inserts db t data rows ∧ db'.views = db.views ∧
      ∀ u, db'.tables u = if u = t then (db.tables u).map (·.add rows) else db.tables u := by
  unfold insertData at h
  split at h
  · next hlen =>
    cases h
    refine ⟨[], .inl ⟨List.eq_nil_of_length_eq_zero hlen, rfl⟩, rfl, fun u => ?_⟩
    rw [map_add_nil, ite_self]
  · split at h
    · cases h
    · next r hr =>
      split at h
      · next hwidth =>
        split at h
        · cases h
        · next rows hcast =>
          split at h
          · next hkeys =>
            cases h
            refine ⟨rows, .inr ⟨r, hr, hwidth, hcast, hkeys⟩, rfl, fun u => ?_⟩
            by_cases hu : u = t
            · subst hu
              rw [if_pos rfl, hr]
              exact Function.update_self ..
            · rw [if_neg hu]
              exact Function.update_of_ne hu ..
          · cases h
      · cases h

/-- What can be inserted is. -/
theorem insertData_of_inserts (h : Inserts db t data rows) :
    ∃ db', insertData t data db = .ok db' := by
  unfold insertData
  split
  · exact ⟨_, rfl⟩
  · next hlen =>
    rcases h with ⟨hdata, -⟩ | ⟨r, hr, hwidth, hcast, hkeys⟩
    · exact absurd (congrArg List.length hdata) hlen
    · simp only [hr, if_pos hwidth, hcast, if_pos hkeys]
      exact ⟨_, rfl⟩

theorem Inserts.length_eq (h : Inserts db t data rows) : rows.length = data.length := by
  rcases h with ⟨rfl, rfl⟩ | ⟨r, -, -, hcast, -⟩
  · rfl
  · have hlen := congrArg List.length (mapM_eq_some_iff.mp hcast)
    rw [List.length_map, List.length_map, dataFrame, List.length_map] at hlen
    exact hlen.symm

/-- What a table takes `data` as. -/
theorem Inserts.unique {rows' : List Row} (h : Inserts db t data rows)
    (h' : Inserts db t data rows') : rows = rows' := by
  have hlen := h.length_eq
  have hlen' := h'.length_eq
  rcases h with ⟨rfl, rfl⟩ | ⟨r, hr, -, hcast, -⟩
  · exact (List.eq_nil_of_length_eq_zero hlen').symm
  · rcases h' with ⟨rfl, rfl⟩ | ⟨r', hr', -, hcast', -⟩
    · exact List.eq_nil_of_length_eq_zero hlen
    · obtain rfl := Option.some.inj (hr.symm.trans hr')
      exact Option.some.inj (hcast.symm.trans hcast')

/-- What the insertions leave, if none fails. -/
theorem insertAll_ok (h : insertAll b ts db = .ok db') (hts : ts.Nodup) :
    db'.views = db.views ∧ ∃ rows : Table → List Row, (∀ t ∈ ts, Inserts db t (b t) (rows t)) ∧
      ∀ u, db'.tables u = if u ∈ ts then (db.tables u).map (·.add (rows u)) else db.tables u := by
  induction ts generalizing db with
  | nil =>
    cases h
    exact ⟨rfl, fun _ => [], fun t ht => absurd ht List.not_mem_nil,
      fun u => (if_neg List.not_mem_nil).symm⟩
  | cons t ts ih =>
    obtain ⟨ht, hts⟩ := List.nodup_cons.mp hts
    unfold insertAll at h
    cases hins : insertData t (b t) db with
    | error e => rw [hins] at h; cases h
    | ok d =>
      rw [hins] at h
      obtain ⟨first, hfirst, hviews, htables⟩ := insertData_ok hins
      obtain ⟨hviews', rows, hrows, htables'⟩ := ih h hts
      refine ⟨hviews'.trans hviews, Function.update rows t first, fun u hu => ?_, fun u => ?_⟩
      · by_cases hut : u = t
        · subst hut
          rw [Function.update_self]
          exact hfirst
        · have hd := hrows u ((List.mem_cons.mp hu).resolve_left hut)
          unfold Inserts at hd
          rw [htables u, if_neg hut] at hd
          rw [Function.update_of_ne hut]
          exact hd
      · rw [htables' u, htables u]
        by_cases hut : u = t
        · subst hut
          rw [if_neg ht, if_pos rfl, if_pos List.mem_cons_self, Function.update_self]
        · rw [if_neg hut, Function.update_of_ne hut]
          by_cases hu : u ∈ ts
          · rw [if_pos hu, if_pos (List.mem_cons_of_mem t hu)]
          · rw [if_neg hu, if_neg (fun e => (List.mem_cons.mp e).elim hut hu)]

/-- If each of the tables can be filled, all of them can. -/
theorem insertAll_of_inserts (h : ∀ t ∈ ts, ∃ rows, Inserts db t (b t) rows) (hts : ts.Nodup) :
    ∃ db', insertAll b ts db = .ok db' := by
  induction ts generalizing db with
  | nil => exact ⟨db, rfl⟩
  | cons t ts ih =>
    obtain ⟨ht, hts⟩ := List.nodup_cons.mp hts
    obtain ⟨rows, hrows⟩ := h t List.mem_cons_self
    obtain ⟨d, hd⟩ := insertData_of_inserts hrows
    obtain ⟨_, -, -, htables⟩ := insertData_ok hd
    unfold insertAll
    rw [hd]
    refine ih (fun u hu => ?_) hts
    unfold Inserts
    rw [htables u, if_neg (ne_of_mem_of_not_mem hu ht)]
    exact h u (List.mem_cons_of_mem t hu)

/-! ## Dropping -/

/-- The table is there with its view. -/
def Has (db : Db) (t : Table) : Prop := (∃ r, db.tables t = some r) ∧ db.views (.view t) = true

/-- Only views of `vs`, and tables with such a view, are dropped, and no row with them. -/
structure Dropped (vs : List View) (db db' : Db) : Prop where
  rows : ∀ u, db'.rows u = db.rows u
  tables : ∀ u, View.view u ∉ vs → db'.tables u = db.tables u
  views : ∀ v ∉ vs, db'.views v = db.views v

theorem Dropped.refl (vs : List View) (db : Db) : Dropped vs db db :=
  ⟨fun _ => rfl, fun _ _ => rfl, fun _ _ => rfl⟩

theorem Dropped.trans {vs vs' : List View} {db'' : Db} (h : Dropped vs db db')
    (h' : Dropped vs' db' db'') :
    Dropped (vs ++ vs') db db'' where
  rows u := (h'.rows u).trans (h.rows u)
  tables u hu := by
    rw [List.mem_append, not_or] at hu
    exact (h'.tables u hu.2).trans (h.tables u hu.1)
  views v hv := by
    rw [List.mem_append, not_or] at hv
    exact (h'.views v hv.2).trans (h.views v hv.1)

/-- What is not among them is still there. -/
theorem Dropped.has {vs : List View} (h : Dropped vs db db') (ht : View.view t ∉ vs)
    (hh : Has db t) :
    Has db' t := by
  unfold Has
  rw [h.tables t ht, h.views _ ht]
  exact hh

/-- A view that exists can be dropped. -/
theorem dropView_dropped {v : View} (h : db.views v = true) :
    ∃ db', dropView v db = .ok db' ∧ Dropped [v] db db' := by
  unfold dropView
  rw [if_pos h]
  refine ⟨_, rfl, fun _ => rfl, fun _ _ => rfl, fun w hw => ?_⟩
  exact Function.update_of_ne (fun e => hw (List.mem_singleton.mpr e)) ..

theorem dropTable_dropped (h : ∃ r, db.tables t = some r) (hrows : db.rows t = []) :
    ∃ db', dropTable t db = .ok db' ∧ Dropped [.view t] db db' := by
  obtain ⟨r, hr⟩ := h
  unfold dropTable
  rw [hr]
  refine ⟨_, rfl, fun u => ?_, fun u hu => ?_, fun _ _ => rfl⟩
  · by_cases hu : u = t
    · subst hu
      rw [hrows]
      unfold Db.rows
      dsimp only
      rw [Function.update_self]
    · unfold Db.rows
      dsimp only
      rw [Function.update_of_ne hu]
  · exact Function.update_of_ne (fun e => hu (List.mem_singleton.mpr (congrArg View.view e))) ..

theorem drop_dropped (h : Has db t) (hrows : db.rows t = []) :
    ∃ db', drop t db = .ok db' ∧ Dropped [.view t] db db' := by
  obtain ⟨d, hd, hview⟩ := dropView_dropped h.2
  have htables : d.tables = db.tables := by
    unfold dropView at hd
    rw [if_pos h.2] at hd
    cases hd
    rfl
  have hthere : ∃ r, d.tables t = some r := by
    rw [htables]
    exact h.1
  obtain ⟨d', hd', htable⟩ := dropTable_dropped hthere ((hview.rows t).trans hrows)
  refine ⟨d', ?_, (hview.trans htable).rows, fun u hu => ?_, fun v hv => ?_⟩
  · unfold drop
    rw [hd]
    exact hd'
  · rw [htable.tables u hu, htables]
  · exact (htable.views v hv).trans (hview.views v hv)

/-- Whether a table that exists is empty. -/
theorem isTableEmpty_eq (h : Has db t) : isTableEmpty t db = .ok (decide (db.rows t = [])) := by
  obtain ⟨⟨r, hr⟩, -⟩ := h
  unfold isTableEmpty Db.rows
  rw [hr]
  cases hrows : r.rows with
  | nil => simp [hrows]
  | cons x xs => simp [hrows]

/-- A table that exists and is empty is dropped. -/
theorem dropIfEmpty_dropped (h : Has db t) :
    ∃ db', dropIfEmpty t db = .ok db' ∧ Dropped [.view t] db db' := by
  unfold dropIfEmpty
  rw [isTableEmpty_eq h]
  by_cases hrows : db.rows t = []
  · obtain ⟨d, hd, hdropped⟩ := drop_dropped h hrows
    refine ⟨d, ?_, hdropped⟩
    show (if decide (db.rows t = []) = true then drop t db else .ok db) = _
    rw [if_pos (decide_eq_true hrows), hd]
  · refine ⟨db, ?_, .refl _ db⟩
    show (if decide (db.rows t = []) = true then drop t db else .ok db) = _
    rw [if_neg (fun e => hrows (of_decide_eq_true e))]

/-- One more table that has no row is dropped. -/
theorem Dropped.next {vs : List View} {d : Db} (hd : Dropped vs db d) (ht : View.view t ∉ vs)
    (h : Has db t)
    (hrows : db.rows t = []) : ∃ d', drop t d = .ok d' ∧ Dropped (vs ++ [.view t]) db d' := by
  obtain ⟨d', hdrop, hd'⟩ := drop_dropped (hd.has ht h) ((hd.rows t).trans hrows)
  exact ⟨d', hdrop, hd.trans hd'⟩

theorem Dropped.nextIfEmpty {vs : List View} {d : Db} (hd : Dropped vs db d) (ht : View.view t ∉ vs)
    (h : Has db t) : ∃ d', dropIfEmpty t d = .ok d' ∧ Dropped (vs ++ [.view t]) db d' := by
  obtain ⟨d', hdrop, hd'⟩ := dropIfEmpty_dropped (hd.has ht h)
  exact ⟨d', hdrop, hd.trans hd'⟩

/-- Whether tables that exist are empty. -/
theorem areTablesEmpty_eq (h : ∀ t ∈ ts, Has db t) :
    areTablesEmpty ts db = .ok (decide (∀ t ∈ ts, db.rows t = [])) := by
  induction ts with
  | nil => simp [areTablesEmpty]
  | cons t ts ih =>
    unfold areTablesEmpty
    rw [isTableEmpty_eq (h t List.mem_cons_self), ih (fun u hu => h u (List.mem_cons_of_mem t hu))]
    show (if decide (db.rows t = []) = true then _ else _) = _
    by_cases hrows : db.rows t = []
    · rw [if_pos (decide_eq_true hrows)]
      simp [hrows]
    · rw [if_neg (fun e => hrows (of_decide_eq_true e))]
      simp [hrows]

/-- The power events can be dropped where all their tables exist. -/
theorem dropPowerEvents_dropped (hpower : db.views .powerEvents = true)
    (h : ∀ t ∈ [Table.mwait, .pwre, .exstop, .pwrx, .cbr], Has db t) :
    ∃ db', dropPowerEvents db = .ok db' ∧ Dropped
      [.powerEvents, .view .mwait, .view .pwre, .view .exstop, .view .pwrx, .view .cbr] db db' := by
  have hfour : ∀ t ∈ [Table.mwait, .pwre, .exstop, .pwrx], Has db t := fun t ht =>
    h t (List.mem_append_left [Table.cbr] ht)
  unfold dropPowerEvents
  rw [areTablesEmpty_eq hfour]
  show ∃ db', (if decide (∀ t ∈ [Table.mwait, .pwre, .exstop, .pwrx], db.rows t = []) = true
    then _ else _) = _ ∧ _
  by_cases hrows : ∀ t ∈ [Table.mwait, .pwre, .exstop, .pwrx], db.rows t = []
  · rw [if_pos (decide_eq_true hrows)]
    obtain ⟨d1, h1, hd1⟩ := dropView_dropped hpower
    obtain ⟨d2, h2, hd2⟩ := hd1.next (by simp) (h .mwait (by simp)) (hrows .mwait (by simp))
    obtain ⟨d3, h3, hd3⟩ := hd2.next (by simp) (h .pwre (by simp)) (hrows .pwre (by simp))
    obtain ⟨d4, h4, hd4⟩ := hd3.next (by simp) (h .exstop (by simp)) (hrows .exstop (by simp))
    obtain ⟨d5, h5, hd5⟩ := hd4.next (by simp) (h .pwrx (by simp)) (hrows .pwrx (by simp))
    obtain ⟨d6, h6, hd6⟩ := hd5.nextIfEmpty (by simp) (h .cbr (by simp))
    refine ⟨d6, ?_, hd6⟩
    simp only [h1, h2, h3, h4, h5, h6, Except.bind]
  · rw [if_neg (fun e => hrows (of_decide_eq_true e))]
    exact ⟨db, rfl, .refl _ db⟩

/-- The tables that `trace_end` may drop. -/
def droppable : List Table :=
  [.ptwrite, .mwait, .pwre, .exstop, .pwrx, .cbr, .contextSwitches, .auxtraceErrors]

/-- `trace_end` after the insertions: it does not fail, and no row is lost. -/
theorem drops_dropped (hpower : db.views .powerEvents = true) (h : ∀ t ∈ droppable, Has db t) :
    ∃ db', ((dropIfEmpty .ptwrite db).bind fun db => (dropPowerEvents db).bind fun db =>
      (dropIfEmpty .contextSwitches db).bind fun db => dropIfEmpty .auxtraceErrors db) = .ok db' ∧
      ∀ t, db'.rows t = db.rows t := by
  obtain ⟨d1, h1, hd1⟩ := dropIfEmpty_dropped (h .ptwrite (by decide))
  have hfive : ∀ t ∈ [Table.mwait, .pwre, .exstop, .pwrx, .cbr], Has d1 t := by
    intro t ht
    have hmem : t ∈ droppable := by
      revert t
      decide
    have hne : View.view t ∉ [View.view .ptwrite] := by
      revert t
      decide
    exact hd1.has hne (h t hmem)
  obtain ⟨d2, h2, hd2⟩ := dropPowerEvents_dropped ((hd1.views _ (by decide)).trans hpower) hfive
  have hd2 := hd1.trans hd2
  obtain ⟨d3, h3, hd3⟩ := hd2.nextIfEmpty (by simp) (h .contextSwitches (by decide))
  obtain ⟨d4, h4, hd4⟩ := hd3.nextIfEmpty (by simp) (h .auxtraceErrors (by decide))
  refine ⟨d4, ?_, hd4.rows⟩
  simp only [h1, h2, h3, h4, Except.bind]

/-! ## The whole of `trace_end` -/

theorem mem_insertOrder (t : Table) : t ∈ insertOrder := by
  cases t <;> decide

/-- The database after the insertions. -/
theorem inserted (h : insertAll b insertOrder (created o) = .ok db) : ∃ rows : Table → List Row,
    (∀ t, Inserts (created o) t (b t) (rows t)) ∧
      ∀ t, db.tables t = (schema o t).map fun cols => ⟨cols, rows t⟩ := by
  obtain ⟨-, rows, hrows, htables⟩ := insertAll_ok h (by decide)
  refine ⟨rows, fun t => hrows t (mem_insertOrder t), fun t => ?_⟩
  rw [htables t, if_pos (mem_insertOrder t)]
  show ((schema o t).map _).map _ = _
  rw [Option.map_map]
  rfl

/-- What may be dropped exists when all tables are filled. -/
theorem inserted_has (h : insertAll b insertOrder (created o) = .ok db) :
    db.views .powerEvents = true ∧ ∀ t ∈ droppable, Has db t := by
  have hviews := (insertAll_ok h (by decide)).1
  obtain ⟨rows, -, htables⟩ := inserted h
  refine ⟨by rw [hviews]; rfl, fun t ht => ?_⟩
  unfold Has
  rw [htables, hviews]
  simp only [droppable, List.mem_cons, List.not_mem_nil, or_false] at ht
  rcases ht with rfl | rfl | rfl | rfl | rfl | rfl | rfl | rfl <;> exact ⟨⟨_, rfl⟩, rfl⟩

/-- **What `trace_end` leaves, if it does not fail**: the rows of the buffers, as the tables take
them. -/
theorem traceEnd_ok (h : traceEnd b (created o) = .ok db) (t : Table) :
    Inserts (created o) t (b t) (db.rows t) := by
  unfold traceEnd at h
  cases hins : insertAll b insertOrder (created o) with
  | error e => rw [hins] at h; cases h
  | ok d =>
    obtain ⟨hpower, hhas⟩ := inserted_has hins
    obtain ⟨d', hd', hrows⟩ := drops_dropped hpower hhas
    obtain ⟨rows, hinserts, htables⟩ := inserted hins
    rw [hins] at h
    cases h.symm.trans hd'
    have ht := hinserts t
    have heq : db.rows t = rows t := by
      rw [hrows t]
      unfold Db.rows
      rw [htables t]
      cases hcols : schema o t with
      | some cols => rfl
      | none =>
        rcases ht with ⟨-, hnil⟩ | ⟨r, hr, -⟩
        · exact hnil.symm
        · have hnone : (created o).tables t = none := congrArg (Option.map _) hcols
          rw [hnone] at hr
          cases hr
    rw [heq]
    exact ht

/-- `trace_end` does not fail on buffers that the tables take. -/
theorem traceEnd_of_inserts {rows : Table → List Row}
    (h : ∀ t, Inserts (created o) t (b t) (rows t)) :
    ∃ db, traceEnd b (created o) = .ok db ∧ ∀ t, db.rows t = rows t := by
  obtain ⟨d, hins⟩ :=
    insertAll_of_inserts (fun t (_ : t ∈ insertOrder) => ⟨rows t, h t⟩) (by decide)
  obtain ⟨hpower, hhas⟩ := inserted_has hins
  obtain ⟨d', hd', -⟩ := drops_dropped hpower hhas
  have hend : traceEnd b (created o) = .ok d' := by
    unfold traceEnd
    rw [hins]
    exact hd'
  exact ⟨d', hend, fun t => (traceEnd_ok hend t).unique (h t)⟩

/-! ## The export -/

theorem mem_rowOf {x : Row} {p : Option (Table × Row)} (h : x ∈ rowOf t p) : p = some (t, x) := by
  unfold rowOf at h
  split at h
  · cases h
  · split at h
    · next hut =>
      rw [List.mem_singleton] at h
      rw [hut, h]
    · cases h

/-- A row that a callback owes has the width of its table, which the options create. -/
theorem owed_width {c : Callback} {x : Row} (hc : c.Invoked o) (h : c.owed o = some (t, x)) :
    ∃ cols, schema o t = some cols ∧ x.length = cols.length := by
  cases c with
  | callReturnTable y => cases h; exact ⟨_, if_pos hc, y.property⟩
  | callPathTable y =>
    cases h
    refine ⟨_, if_pos ?_, y.property⟩
    rcases hc with hc | hc <;> rw [hc] <;> simp
  | sampleTable y =>
    cases h
    exact ⟨_, rfl, (List.length_map ..).trans (List.length_map ..)⟩
  | synthData id config rawBuf =>
    match config, h with
    | 0, h | 1, h | 2, h | 3, h | 4, h | 5, h => cases h; exact ⟨_, rfl, rfl⟩
  | traceUnhandled => cases h
  | schedSchedSwitch => cases h
  | _ y => cases h; exact ⟨_, rfl, y.property⟩

/-- `trace_begin` calls back as perf does, unless it is for call chains alone. -/
theorem traceBegin_invoked (h : o.callchains = true → o.calls = true) {c : Callback}
    (hc : c ∈ traceBegin o) :
    c.Invoked o ∧ c.Sound := by
  unfold traceBegin at hc
  rcases List.mem_append.mp hc with hc | hc
  · simp only [List.mem_cons, List.not_mem_nil, or_false] at hc
    rcases hc with rfl | rfl | rfl | rfl | rfl | rfl | rfl <;> exact ⟨trivial, trivial⟩
  · split at hc
    · next hopt =>
      have hcalls : o.calls = true := by
        rcases Bool.or_eq_true_iff.mp hopt with hcalls | hchains
        · exact hcalls
        · exact h hchains
      simp only [List.mem_cons, List.not_mem_nil, or_false] at hc
      rcases hc with rfl | rfl
      · exact ⟨.inl hcalls, trivial⟩
      · exact ⟨hcalls, trivial⟩
    · cases hc

/-- Equal concatenations of parts that have the same lengths have the same parts. -/
theorem eq_of_flatMap_eq {α β : Type*} {f g : α → List β} {l : List α}
    (hlen : ∀ a ∈ l, (f a).length = (g a).length) (h : l.flatMap f = l.flatMap g) :
      ∀ a ∈ l, f a = g a := by
  induction l with
  | nil =>
    intro a ha
    cases ha
  | cons x l ih =>
    rw [List.flatMap_cons, List.flatMap_cons] at h
    obtain ⟨hx, hl⟩ := List.append_inj h (hlen x List.mem_cons_self)
    intro a ha
    rcases List.mem_cons.mp ha with rfl | ha
    · exact hx
    · exact ih (fun b hb => hlen b (List.mem_cons_of_mem x hb)) hl a ha

/-- What is filed for a table, as the code files it. -/
def filedRows (o : Options) (cs : List Callback) (t : Table) : List Row :=
  (traceBegin o ++ cs).flatMap fun c => rowOf t (c.files o)

/-- An export that does not fail filed every callback, and the tables took the rows. -/
theorem exportTrace_ok (h : exportTrace o cs = .ok db) :
    (∀ t, Inserts (created o) t (filedRows o cs t) (db.rows t)) ∧
      ∀ c ∈ cs, ∃ d, c.call o (fun _ => []) = .ok d := by
  unfold exportTrace at h
  cases hall : callAll o (traceBegin o ++ cs) fun _ => [] with
  | error e => rw [hall] at h; cases h
  | ok b =>
    rw [hall] at h
    obtain ⟨hb, hcalls⟩ := callAll_ok hall
    refine ⟨fun t => ?_, fun c hc => hcalls c (List.mem_append_right _ hc)⟩
    have hbt : b t = filedRows o cs t := by
      rw [hb]
      refine (List.nil_append _).trans (List.flatMap_congr fun c hc => ?_)
      obtain ⟨d, hd⟩ := hcalls c hc
      exact adds_eq hd t
    rw [← hbt]
    exact traceEnd_ok h t

/-- A row that is filed for a sound callback has the width of its table and becomes the row that the
table is owed. -/
theorem files_cast {c : Callback} {cols : List Column} (hc : c.Invoked o ∧ c.Sound)
    (hcols : schema o t = some cols)
    (hcast : ∀ x ∈ rowOf t (c.owed o), castRow cols x = some x) :
    (∀ x ∈ rowOf t (c.files o), x.length = cols.length) ∧
      (rowOf t (c.files o)).map (castRow cols) = (rowOf t (c.owed o)).map some := by
  rcases files_sound hc.2 with heq | ⟨id, rawBuf, rfl⟩
  · rw [heq]
    refine ⟨fun x hx => ?_, List.map_congr_left hcast⟩
    obtain ⟨cols', hcols', hlen⟩ := owed_width hc.1 (mem_rowOf hx)
    rw [hlen, Option.some.inj (hcols.symm.trans hcols')]
  · by_cases ht : t = .cbr
    · subst ht
      have hround := hc.2.2.2 rfl
      have hrow := hcast (recordRow id (decodedCbr rawBuf)) (List.mem_singleton.mpr rfl)
      have hid : castNum id .integer = some (.num id) := by
        cases hcols
        obtain ⟨v, hv, hx⟩ := Option.bind_eq_some_iff.mp hrow
        obtain ⟨x, -, heq⟩ := Option.map_eq_some_iff.mp hx
        exact hv.trans (congrArg some (List.cons.inj heq).1)
      have hcbr := (castRow_cbrRow_iff hcols id hround.1).mpr ⟨hid, hround⟩
      refine ⟨fun x hx => ?_, congrArg (fun x => [x]) hcbr⟩
      obtain rfl := List.mem_singleton.mp hx
      cases hcols
      rfl
    · have hfiles : rowOf t (Callback.files o (.synthData id 5 rawBuf)) = [] :=
        rowOf_ne (Ne.symm ht) _
      have howed : rowOf t (Callback.owed o (.synthData id 5 rawBuf)) = [] :=
        rowOf_ne (Ne.symm ht) _
      rw [hfiles, howed]
      exact ⟨fun x hx => absurd hx List.not_mem_nil, rfl⟩

/-- The tables take what is filed, and as what they are owed. -/
theorem inserts_of_storable (hboth : ∀ c ∈ traceBegin o ++ cs, c.Invoked o ∧ c.Sound)
    (hstorable : Storable o cs) (t : Table) :
    Inserts (created o) t (filedRows o cs t) (owedRows o cs t) := by
  cases hcols : schema o t with
  | none =>
    -- nothing is for a table that is not created
    have howed : ∀ c ∈ traceBegin o ++ cs, rowOf t (c.owed o) = [] := by
      intro c hc
      refine List.eq_nil_iff_forall_not_mem.mpr fun x hx => ?_
      obtain ⟨cols, hsome, -⟩ := owed_width (hboth c hc).1 (mem_rowOf hx)
      rw [hcols] at hsome
      cases hsome
    refine .inl ⟨List.flatMap_eq_nil_iff.mpr fun c hc => ?_, List.flatMap_eq_nil_iff.mpr howed⟩
    rcases files_sound (o := o) (hboth c hc).2 with heq | ⟨id, rawBuf, rfl⟩
    · rw [heq]
      exact howed c hc
    · refine rowOf_ne ?_ _
      rintro rfl
      cases hcols
  | some cols =>
    obtain ⟨hcast, hkeys⟩ := hstorable t cols hcols
    have hfiles : ∀ c ∈ traceBegin o ++ cs, _ := fun c hc =>
      files_cast (hboth c hc) hcols fun x hx => hcast x (List.mem_flatMap.mpr ⟨c, hc, hx⟩)
    have hrows : (filedRows o cs t).map (castRow cols) = (owedRows o cs t).map some := by
      unfold filedRows owedRows
      rw [List.map_flatMap, List.map_flatMap]
      exact List.flatMap_congr fun c hc => (hfiles c hc).2
    by_cases hnil : filedRows o cs t = []
    · rw [hnil, List.map_nil, eq_comm, List.map_eq_nil_iff] at hrows
      exact .inl ⟨hnil, hrows⟩
    · have hwidth : ∀ x ∈ filedRows o cs t, x.length = cols.length := by
        intro x hx
        obtain ⟨c, hc, hxc⟩ := List.mem_flatMap.mp hx
        exact (hfiles c hc).1 x hxc
      refine .inr ⟨⟨cols, []⟩, congrArg (Option.map _) hcols, dataFrameWidth_eq hwidth hnil,
        ?_, hkeys⟩
      rw [dataFrame_eq hwidth]
      exact mapM_eq_some_iff.mpr hrows

/-- Sound callbacks are exported, if the tables can hold their rows. -/
theorem exports_of_sound (hcs : ∀ c ∈ cs, c.Invoked o) (hopt : o.callchains = true → o.calls = true)
    (hsound : ∀ c ∈ cs, c.Sound) (hstorable : Storable o cs) : Exports o cs := by
  have hboth : ∀ c ∈ traceBegin o ++ cs, c.Invoked o ∧ c.Sound := by
    intro c hc
    rcases List.mem_append.mp hc with hc | hc
    · exact traceBegin_invoked hopt hc
    · exact ⟨hcs c hc, hsound c hc⟩
  have hcall : ∀ c ∈ traceBegin o ++ cs, ∃ d, c.call o (fun _ => []) = .ok d := fun c hc =>
    call_of_sound (hboth c hc).2
  have hbuf : ∀ t, (traceBegin o ++ cs).flatMap (fun c => c.adds o t) = filedRows o cs t := fun t =>
    List.flatMap_congr fun c hc => by
      obtain ⟨d, hd⟩ := hcall c hc
      exact adds_eq hd t
  have hinserts : ∀ t, Inserts (created o) t (filedRows o cs t) (owedRows o cs t) := fun t =>
    inserts_of_storable hboth hstorable t
  obtain ⟨db, hdb, hrows⟩ := traceEnd_of_inserts hinserts
  refine ⟨db, ?_, hrows⟩
  unfold exportTrace
  rw [callAll_of_forall hcall]
  simp only [List.nil_append, hbuf]
  exact hdb

/-- An export for call chains alone fails. -/
theorem calls_of_exports (h : Exports o cs) (hchains : o.callchains = true) : o.calls = true := by
  obtain ⟨db, hdb, -⟩ := h
  by_contra hcalls
  have hmem : Callback.callReturnTable ⟨List.replicate 14 (.num 0), rfl⟩ ∈ traceBegin o ++ cs := by
    unfold traceBegin
    rw [hchains, Bool.or_true, if_pos rfl]
    simp
  have hfiled : List.replicate 14 (.num 0) ∈ filedRows o cs .calls :=
    List.mem_flatMap.mpr ⟨_, hmem, List.mem_singleton.mpr rfl⟩
  rcases (exportTrace_ok hdb).1 .calls with ⟨hnil, -⟩ | ⟨r, hr, -⟩
  · rw [hnil] at hfiled
    cases hfiled
  · have hnone : (created o).tables .calls = none := congrArg (Option.map _) (if_neg hcalls)
    rw [hnone] at hr
    cases hr

/-- The rows of `cbr` have four values. -/
theorem cbr_width {c : Callback} {x : Row} (h : x ∈ rowOf .cbr (c.files o)) : x.length = 4 := by
  have hx := mem_rowOf h
  cases c with
  | synthData id config rawBuf =>
    match config, hx with
    | 0, hx | 1, hx | 2, hx | 3, hx | 4, hx => cases hx
    | 5, hx => cases hx; rfl
  | _ => cases hx

/-- What `cbr` holds, if it holds what it is owed: each row comes from one of the code. -/
theorem cast_cbr (h : Inserts (created o) .cbr (filedRows o cs .cbr) (owedRows o cs .cbr)) :
    ∀ cols ∈ schema o .cbr, ∀ c ∈ traceBegin o ++ cs,
      (rowOf .cbr (c.files o)).map (castRow cols) = (rowOf .cbr (c.owed o)).map some := by
  intro cols hcols
  have hwidth : ∀ x ∈ filedRows o cs .cbr, x.length = 4 := by
    intro x hx
    obtain ⟨c, -, hxc⟩ := List.mem_flatMap.mp hx
    exact cbr_width hxc
  have hmap : (filedRows o cs .cbr).map (castRow cols) = (owedRows o cs .cbr).map some := by
    rcases h with ⟨hfiled, howed⟩ | ⟨r, hr, -, hcast, -⟩
    · rw [hfiled, howed]
      rfl
    · cases hcols
      cases hr
      rw [dataFrame_eq hwidth] at hcast
      exact mapM_eq_some_iff.mp hcast
  unfold filedRows owedRows at hmap
  rw [List.map_flatMap, List.map_flatMap] at hmap
  refine eq_of_flatMap_eq (fun c _ => ?_) hmap
  rw [List.length_map, List.length_map, rowOf_cbr_length]

/-- **An export that works out has sound callbacks only.** -/
theorem sound_of_exports (h : Exports o cs) : ∀ c ∈ cs, c.Sound := by
  obtain ⟨db, hdb, hrows⟩ := h
  obtain ⟨hinserts, hcalls⟩ := exportTrace_ok hdb
  intro c hc
  obtain ⟨d, hd⟩ := hcalls c hc
  cases c with
  | synthData id config rawBuf =>
    obtain ⟨hlen, hmax⟩ := synthData_ok hd
    refine ⟨?_, hlen, ?_⟩
    · -- a ptwrite owes `ptwrite` a row, and no callback files one there
      rintro rfl
      have hempty : filedRows o cs .ptwrite = [] :=
        List.flatMap_eq_nil_iff.mpr fun c _ => rowOf_ptwrite_files o c
      have hlength := (hinserts .ptwrite).length_eq
      rw [hempty, hrows .ptwrite] at hlength
      have hnil := List.flatMap_eq_nil_iff.mp (List.eq_nil_of_length_eq_zero hlength) _
        (List.mem_append_right _ hc)
      cases hnil
    · -- the rows of `cbr` come from those of the code, one for each that is owed
      rintro rfl
      have hcbr := hinserts .cbr
      rw [hrows .cbr] at hcbr
      have hrow := cast_cbr hcbr _ rfl _ (List.mem_append_right _ hc)
      exact ((castRow_cbrRow_iff (o := o) rfl id (hmax rfl)).mp (List.singleton_inj.mp hrow)).2
  | _ => trivial

/-- What a table holds it can hold. -/
theorem storable_of_exports (h : Exports o cs) : Storable o cs := by
  obtain ⟨db, hdb, hrows⟩ := h
  intro t cols hcols
  have hinserts := (exportTrace_ok hdb).1 t
  rw [hrows t] at hinserts
  rcases hinserts with ⟨-, howed⟩ | ⟨r, hr, -, hcast, hkeys⟩
  · rw [howed]
    exact ⟨fun x hx => absurd hx List.not_mem_nil, fun _ =>
      ⟨List.nodup_nil, fun x hx => by cases hx⟩⟩
  · have hcreated : (created o).tables t = some ⟨cols, []⟩ := congrArg (Option.map _) hcols
    obtain rfl := Option.some.inj (hr.symm.trans hcreated)
    refine ⟨fun x hx => ?_, hkeys⟩
    have hmem : some x ∈ (dataFrame (filedRows o cs t)).map (castRow cols) := by
      rw [mapM_eq_some_iff.mp hcast]
      exact List.mem_map_of_mem hx
    obtain ⟨y, -, hy⟩ := List.mem_map.mp hmem
    exact castRow_castRow hy

/-- **The exporter files every callback in its own table exactly if** it is not for call
chains alone, no event is a ptwrite, every event has a complete record, the MHz and the
percentage of every cbr event are to be rounded up, and the tables can hold the rows. -/
theorem exports_iff (hcs : ∀ c ∈ cs, c.Invoked o) : Exports o cs ↔
    (o.callchains = true → o.calls = true) ∧ (∀ c ∈ cs, c.Sound) ∧ Storable o cs :=
  ⟨fun h => ⟨calls_of_exports h, sound_of_exports h, storable_of_exports h⟩,
    fun h => exports_of_sound hcs h.1 h.2.1 h.2.2⟩

/-- A call and a cbr record: ratio 25 of 40, 2399500 kHz. -/
theorem exports_iff_cbr : Exports ⟨true, true, false⟩
    [.callReturnTable ⟨List.replicate 14 (.num 1), rfl⟩,
      .synthData 1 5 [25, 0, 40, 0, 12, 157, 36, 0, 0, 0, 0, 0]] := by
  refine (exports_iff fun c hc => ?_).mpr ⟨by decide, fun c hc => ?_, fun t cols hcols => ?_⟩
  · simp only [List.mem_cons, List.not_mem_nil, or_false] at hc
    rcases hc with rfl | rfl
    · rfl
    · trivial
  · simp only [List.mem_cons, List.not_mem_nil, or_false] at hc
    rcases hc with rfl | rfl
    · trivial
    · exact ⟨by decide, by decide, fun _ => by unfold RoundsUp; decide⟩
  · cases t <;> cases hcols <;> decide

/-- A ptwrite, whose row goes to `calls`; an export for call chains alone, whose first row of
`calls` has no table; a cbr of 2400000 kHz at the ratio 24 of 24, which becomes 2401 MHz and 101 %.
-/
theorem misfiled :
    ¬Exports ⟨false, true, false⟩ [.synthData 1 0 [1, 0, 0, 0, 7, 0, 0, 0, 0, 0, 0, 0]] ∧
      ¬Exports ⟨false, false, true⟩ [] ∧
      ¬Exports ⟨false, false, false⟩
        [.synthData 1 5 [24, 0, 24, 0, 0, 159, 36, 0, 0, 0, 0, 0]] := by
  refine ⟨fun h => ?_, fun h => ?_, fun h => ?_⟩
  · exact (sound_of_exports h _ (List.mem_singleton.mpr rfl)).1 rfl
  · cases calls_of_exports h rfl
  · have hround := (sound_of_exports h _ (List.mem_singleton.mpr rfl)).2.2 rfl
    revert hround
    unfold RoundsUp
    decide

end ShouldIAsync.IntelProcTrace.Export
