/-
# Opcodes

An opcode is a byte; 202 of the 256 values name instructions.  `Opcode.table` has one row for
each: its mnemonic, and the net change in operand stack slots that it causes when that change
does not depend on its operands.  Field accesses, invocations, `multianewarray` and the loads
of constants have no such number, because a descriptor or a constant decides.  A branch has the
effect of the comparison that it makes.
-/
namespace ClassFile

/-- The first byte of an instruction. -/
abbrev Opcode := UInt8

namespace Opcode

/-! ## 1. Names -/

@[match_pattern] def nop : Opcode := 0
@[match_pattern] def aconstNull : Opcode := 1
@[match_pattern] def iconstM1 : Opcode := 2
@[match_pattern] def iconst0 : Opcode := 3
@[match_pattern] def iconst1 : Opcode := 4
@[match_pattern] def iconst2 : Opcode := 5
@[match_pattern] def iconst3 : Opcode := 6
@[match_pattern] def iconst4 : Opcode := 7
@[match_pattern] def iconst5 : Opcode := 8
@[match_pattern] def lconst0 : Opcode := 9
@[match_pattern] def lconst1 : Opcode := 10
@[match_pattern] def fconst0 : Opcode := 11
@[match_pattern] def fconst1 : Opcode := 12
@[match_pattern] def fconst2 : Opcode := 13
@[match_pattern] def dconst0 : Opcode := 14
@[match_pattern] def dconst1 : Opcode := 15
@[match_pattern] def bipush : Opcode := 16
@[match_pattern] def sipush : Opcode := 17
@[match_pattern] def ldc : Opcode := 18
@[match_pattern] def ldcW : Opcode := 19
@[match_pattern] def ldc2W : Opcode := 20
@[match_pattern] def iload : Opcode := 21
@[match_pattern] def lload : Opcode := 22
@[match_pattern] def fload : Opcode := 23
@[match_pattern] def dload : Opcode := 24
@[match_pattern] def aload : Opcode := 25
@[match_pattern] def iload0 : Opcode := 26
@[match_pattern] def aload3 : Opcode := 45
@[match_pattern] def iaload : Opcode := 46
@[match_pattern] def laload : Opcode := 47
@[match_pattern] def faload : Opcode := 48
@[match_pattern] def daload : Opcode := 49
@[match_pattern] def aaload : Opcode := 50
@[match_pattern] def baload : Opcode := 51
@[match_pattern] def caload : Opcode := 52
@[match_pattern] def saload : Opcode := 53
@[match_pattern] def istore : Opcode := 54
@[match_pattern] def lstore : Opcode := 55
@[match_pattern] def fstore : Opcode := 56
@[match_pattern] def dstore : Opcode := 57
@[match_pattern] def astore : Opcode := 58
@[match_pattern] def istore0 : Opcode := 59
@[match_pattern] def astore3 : Opcode := 78
@[match_pattern] def iastore : Opcode := 79
@[match_pattern] def lastore : Opcode := 80
@[match_pattern] def fastore : Opcode := 81
@[match_pattern] def dastore : Opcode := 82
@[match_pattern] def aastore : Opcode := 83
@[match_pattern] def bastore : Opcode := 84
@[match_pattern] def castore : Opcode := 85
@[match_pattern] def sastore : Opcode := 86
@[match_pattern] def pop : Opcode := 87
@[match_pattern] def pop2 : Opcode := 88
@[match_pattern] def dup : Opcode := 89
@[match_pattern] def dupX1 : Opcode := 90
@[match_pattern] def dupX2 : Opcode := 91
@[match_pattern] def dup2 : Opcode := 92
@[match_pattern] def dup2X1 : Opcode := 93
@[match_pattern] def dup2X2 : Opcode := 94
@[match_pattern] def swap : Opcode := 95
@[match_pattern] def iadd : Opcode := 96
@[match_pattern] def ladd : Opcode := 97
@[match_pattern] def fadd : Opcode := 98
@[match_pattern] def dadd : Opcode := 99
@[match_pattern] def isub : Opcode := 100
@[match_pattern] def lsub : Opcode := 101
@[match_pattern] def fsub : Opcode := 102
@[match_pattern] def dsub : Opcode := 103
@[match_pattern] def imul : Opcode := 104
@[match_pattern] def lmul : Opcode := 105
@[match_pattern] def fmul : Opcode := 106
@[match_pattern] def dmul : Opcode := 107
@[match_pattern] def idiv : Opcode := 108
@[match_pattern] def ldiv : Opcode := 109
@[match_pattern] def fdiv : Opcode := 110
@[match_pattern] def ddiv : Opcode := 111
@[match_pattern] def irem : Opcode := 112
@[match_pattern] def lrem : Opcode := 113
@[match_pattern] def frem : Opcode := 114
@[match_pattern] def drem : Opcode := 115
@[match_pattern] def ineg : Opcode := 116
@[match_pattern] def lneg : Opcode := 117
@[match_pattern] def fneg : Opcode := 118
@[match_pattern] def dneg : Opcode := 119
@[match_pattern] def ishl : Opcode := 120
@[match_pattern] def lshl : Opcode := 121
@[match_pattern] def ishr : Opcode := 122
@[match_pattern] def lshr : Opcode := 123
@[match_pattern] def iushr : Opcode := 124
@[match_pattern] def lushr : Opcode := 125
@[match_pattern] def iand : Opcode := 126
@[match_pattern] def land : Opcode := 127
@[match_pattern] def ior : Opcode := 128
@[match_pattern] def lor : Opcode := 129
@[match_pattern] def ixor : Opcode := 130
@[match_pattern] def lxor : Opcode := 131
@[match_pattern] def iinc : Opcode := 132
@[match_pattern] def i2l : Opcode := 133
@[match_pattern] def i2f : Opcode := 134
@[match_pattern] def i2d : Opcode := 135
@[match_pattern] def l2i : Opcode := 136
@[match_pattern] def l2f : Opcode := 137
@[match_pattern] def l2d : Opcode := 138
@[match_pattern] def f2i : Opcode := 139
@[match_pattern] def f2l : Opcode := 140
@[match_pattern] def f2d : Opcode := 141
@[match_pattern] def d2i : Opcode := 142
@[match_pattern] def d2l : Opcode := 143
@[match_pattern] def d2f : Opcode := 144
@[match_pattern] def i2b : Opcode := 145
@[match_pattern] def i2c : Opcode := 146
@[match_pattern] def i2s : Opcode := 147
@[match_pattern] def lcmp : Opcode := 148
@[match_pattern] def fcmpl : Opcode := 149
@[match_pattern] def fcmpg : Opcode := 150
@[match_pattern] def dcmpl : Opcode := 151
@[match_pattern] def dcmpg : Opcode := 152
@[match_pattern] def ifeq : Opcode := 153
@[match_pattern] def ifne : Opcode := 154
@[match_pattern] def iflt : Opcode := 155
@[match_pattern] def ifge : Opcode := 156
@[match_pattern] def ifgt : Opcode := 157
@[match_pattern] def ifle : Opcode := 158
@[match_pattern] def ifIcmpeq : Opcode := 159
@[match_pattern] def ifIcmpne : Opcode := 160
@[match_pattern] def ifIcmplt : Opcode := 161
@[match_pattern] def ifIcmpge : Opcode := 162
@[match_pattern] def ifIcmpgt : Opcode := 163
@[match_pattern] def ifIcmple : Opcode := 164
@[match_pattern] def ifAcmpeq : Opcode := 165
@[match_pattern] def ifAcmpne : Opcode := 166
@[match_pattern] def goto : Opcode := 167
@[match_pattern] def jsr : Opcode := 168
@[match_pattern] def ret : Opcode := 169
@[match_pattern] def tableswitch : Opcode := 170
@[match_pattern] def lookupswitch : Opcode := 171
@[match_pattern] def ireturn : Opcode := 172
@[match_pattern] def lreturn : Opcode := 173
@[match_pattern] def freturn : Opcode := 174
@[match_pattern] def dreturn : Opcode := 175
@[match_pattern] def areturn : Opcode := 176
@[match_pattern] def return_ : Opcode := 177
@[match_pattern] def getstatic : Opcode := 178
@[match_pattern] def putstatic : Opcode := 179
@[match_pattern] def getfield : Opcode := 180
@[match_pattern] def putfield : Opcode := 181
@[match_pattern] def invokevirtual : Opcode := 182
@[match_pattern] def invokespecial : Opcode := 183
@[match_pattern] def invokestatic : Opcode := 184
@[match_pattern] def invokeinterface : Opcode := 185
@[match_pattern] def invokedynamic : Opcode := 186
@[match_pattern] def new : Opcode := 187
@[match_pattern] def newarray : Opcode := 188
@[match_pattern] def anewarray : Opcode := 189
@[match_pattern] def arraylength : Opcode := 190
@[match_pattern] def athrow : Opcode := 191
@[match_pattern] def checkcast : Opcode := 192
@[match_pattern] def instanceof : Opcode := 193
@[match_pattern] def monitorenter : Opcode := 194
@[match_pattern] def monitorexit : Opcode := 195
@[match_pattern] def wide : Opcode := 196
@[match_pattern] def multianewarray : Opcode := 197
@[match_pattern] def ifnull : Opcode := 198
@[match_pattern] def ifnonnull : Opcode := 199
@[match_pattern] def gotoW : Opcode := 200
@[match_pattern] def jsrW : Opcode := 201

/-! ## 2. Mnemonics and stack effects -/

/-- Mnemonic and stack effect of each opcode, by its value. -/
def table : Array (String × Option Int) :=
  #[("nop", some 0), ("aconst_null", some 1), ("iconst_m1", some 1), ("iconst_0", some 1),
    ("iconst_1", some 1), ("iconst_2", some 1), ("iconst_3", some 1), ("iconst_4", some 1),
    ("iconst_5", some 1), ("lconst_0", some 2), ("lconst_1", some 2), ("fconst_0", some 1),
    ("fconst_1", some 1), ("fconst_2", some 1), ("dconst_0", some 2), ("dconst_1", some 2),
    ("bipush", some 1), ("sipush", some 1), ("ldc", none), ("ldc_w", none), ("ldc2_w", none),
    ("iload", some 1), ("lload", some 2), ("fload", some 1), ("dload", some 2),
    ("aload", some 1), ("iload_0", some 1), ("iload_1", some 1), ("iload_2", some 1),
    ("iload_3", some 1), ("lload_0", some 2), ("lload_1", some 2), ("lload_2", some 2),
    ("lload_3", some 2), ("fload_0", some 1), ("fload_1", some 1), ("fload_2", some 1),
    ("fload_3", some 1), ("dload_0", some 2), ("dload_1", some 2), ("dload_2", some 2),
    ("dload_3", some 2), ("aload_0", some 1), ("aload_1", some 1), ("aload_2", some 1),
    ("aload_3", some 1), ("iaload", some (-1)), ("laload", some 0), ("faload", some (-1)),
    ("daload", some 0), ("aaload", some (-1)), ("baload", some (-1)), ("caload", some (-1)),
    ("saload", some (-1)), ("istore", some (-1)), ("lstore", some (-2)), ("fstore", some (-1)),
    ("dstore", some (-2)), ("astore", some (-1)), ("istore_0", some (-1)),
    ("istore_1", some (-1)), ("istore_2", some (-1)), ("istore_3", some (-1)),
    ("lstore_0", some (-2)), ("lstore_1", some (-2)), ("lstore_2", some (-2)),
    ("lstore_3", some (-2)), ("fstore_0", some (-1)), ("fstore_1", some (-1)),
    ("fstore_2", some (-1)), ("fstore_3", some (-1)), ("dstore_0", some (-2)),
    ("dstore_1", some (-2)), ("dstore_2", some (-2)), ("dstore_3", some (-2)),
    ("astore_0", some (-1)), ("astore_1", some (-1)), ("astore_2", some (-1)),
    ("astore_3", some (-1)), ("iastore", some (-3)), ("lastore", some (-4)),
    ("fastore", some (-3)), ("dastore", some (-4)), ("aastore", some (-3)),
    ("bastore", some (-3)), ("castore", some (-3)), ("sastore", some (-3)), ("pop", some (-1)),
    ("pop2", some (-2)), ("dup", some 1), ("dup_x1", some 1), ("dup_x2", some 1),
    ("dup2", some 2), ("dup2_x1", some 2), ("dup2_x2", some 2), ("swap", some 0),
    ("iadd", some (-1)), ("ladd", some (-2)), ("fadd", some (-1)), ("dadd", some (-2)),
    ("isub", some (-1)), ("lsub", some (-2)), ("fsub", some (-1)), ("dsub", some (-2)),
    ("imul", some (-1)), ("lmul", some (-2)), ("fmul", some (-1)), ("dmul", some (-2)),
    ("idiv", some (-1)), ("ldiv", some (-2)), ("fdiv", some (-1)), ("ddiv", some (-2)),
    ("irem", some (-1)), ("lrem", some (-2)), ("frem", some (-1)), ("drem", some (-2)),
    ("ineg", some 0), ("lneg", some 0), ("fneg", some 0), ("dneg", some 0), ("ishl", some (-1)),
    ("lshl", some (-1)), ("ishr", some (-1)), ("lshr", some (-1)), ("iushr", some (-1)),
    ("lushr", some (-1)), ("iand", some (-1)), ("land", some (-2)), ("ior", some (-1)),
    ("lor", some (-2)), ("ixor", some (-1)), ("lxor", some (-2)), ("iinc", some 0),
    ("i2l", some 1), ("i2f", some 0), ("i2d", some 1), ("l2i", some (-1)), ("l2f", some (-1)),
    ("l2d", some 0), ("f2i", some 0), ("f2l", some 1), ("f2d", some 1), ("d2i", some (-1)),
    ("d2l", some 0), ("d2f", some (-1)), ("i2b", some 0), ("i2c", some 0), ("i2s", some 0),
    ("lcmp", some (-3)), ("fcmpl", some (-1)), ("fcmpg", some (-1)), ("dcmpl", some (-3)),
    ("dcmpg", some (-3)), ("ifeq", some (-1)), ("ifne", some (-1)), ("iflt", some (-1)),
    ("ifge", some (-1)), ("ifgt", some (-1)), ("ifle", some (-1)), ("if_icmpeq", some (-2)),
    ("if_icmpne", some (-2)), ("if_icmplt", some (-2)), ("if_icmpge", some (-2)),
    ("if_icmpgt", some (-2)), ("if_icmple", some (-2)), ("if_acmpeq", some (-2)),
    ("if_acmpne", some (-2)), ("goto", some 0), ("jsr", some 1), ("ret", some 0),
    ("tableswitch", some (-1)), ("lookupswitch", some (-1)), ("ireturn", some (-1)),
    ("lreturn", some (-2)), ("freturn", some (-1)), ("dreturn", some (-2)),
    ("areturn", some (-1)), ("return", some 0), ("getstatic", none), ("putstatic", none),
    ("getfield", none), ("putfield", none), ("invokevirtual", none), ("invokespecial", none),
    ("invokestatic", none), ("invokeinterface", none), ("invokedynamic", none), ("new", some 1),
    ("newarray", some 0), ("anewarray", some 0), ("arraylength", some 0), ("athrow", some 0),
    ("checkcast", some 0), ("instanceof", some 0), ("monitorenter", some (-1)),
    ("monitorexit", some (-1)), ("wide", none), ("multianewarray", none), ("ifnull", some (-1)),
    ("ifnonnull", some (-1)), ("goto_w", some 0), ("jsr_w", some 1)]

/-- The mnemonic of an opcode. -/
def mnemonic (op : Opcode) : String :=
  match table[op.toNat]? with
  | some (name, _) => name
  | none => "<invalid>"

/-- The net change in operand stack slots, for an opcode whose operands do not decide it. -/
def stackDelta? (op : Opcode) : Option Int := table[op.toNat]?.bind (·.2)

/-! ## 3. Kinds of instructions -/

/-- A return of any type. -/
def isReturn (op : Opcode) : Bool := ireturn ≤ op && op ≤ return_

/-- Does the instruction end a block without falling through? -/
def isTerminal (op : Opcode) : Bool := isReturn op || op == athrow || op == goto || op == gotoW

/-- A jump, conditional or not, which has a label as its operand. -/
def isJump (op : Opcode) : Bool :=
  (ifeq ≤ op && op ≤ jsr) || op == ifnull || op == ifnonnull || op == gotoW || op == jsrW

end Opcode

end ClassFile
