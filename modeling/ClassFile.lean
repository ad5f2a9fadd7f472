import ClassFile.CommandLine.FileTree
import ClassFile.Constructors
import ClassFile.Main
import ClassFile.Proofs.BlockGraph.Solution
import ClassFile.Proofs.Annotation.Encode
import ClassFile.Proofs.BlockGraph.Agreement
import ClassFile.Proofs.BlockGraph.Arranged
import ClassFile.Proofs.BlockGraph.Chain
import ClassFile.Proofs.BlockGraph.Ends
import ClassFile.Proofs.BlockGraph.Heights
import ClassFile.Proofs.BlockGraph.Marks
import ClassFile.Proofs.BlockGraph.Refusal
import ClassFile.Proofs.BlockGraph.Greatest
import ClassFile.Proofs.ClassWriter
import ClassFile.Proofs.StackMap.Written
import ClassFile.Proofs.ClassBytes.Exact
import ClassFile.Proofs.Frame.Height
import ClassFile.Proofs.Frame.Resumed
import ClassFile.Proofs.ConstantPool.Copy
import ClassFile.Proofs.Code.MaxStack
import ClassFile.Proofs.Code.Protected
import ClassFile.Proofs.ClassBytes.Truncated
import ClassFile.Proofs.Annotation.Survival
import ClassFile.Proofs.Outline.Survival
import ClassFile.Proofs.Descriptor.Inverse
import ClassFile.Proofs.Descriptor.Sizes
import ClassFile.Proofs.Text.Canonical
import ClassFile.Proofs.Frame.Join
import ClassFile.Proofs.ClassBytes.Nesting
import ClassFile.Proofs.Content
import ClassFile.Proofs.Code.Errors
import ClassFile.Proofs.Code.Operands
import ClassFile.Proofs.Code.Linking
import ClassFile.Proofs.Code.HandlerTable
import ClassFile.Proofs.ConstantPool.Bootstrap
import ClassFile.Proofs.Code.Placement
import ClassFile.Proofs.Code.ReadBack
import ClassFile.Proofs.Code.Rejection
import ClassFile.Proofs.Code.Switches
import ClassFile.Proofs.Annotation.Whole
import ClassFile.Proofs.Annotation.Parameters
import ClassFile.Proofs.Annotation.Skipped
import ClassFile.Proofs.Constructors
import ClassFile.Proofs.Trace
import ClassFile.Proofs.Frame.Named
import ClassFile.Proofs.Code.Modes
import ClassFile.Proofs.Code.Made
import ClassFile.Proofs.Table.Client
import ClassFile.Proofs.Table.Pushed
import ClassFile.Proofs.ClassBytes.Indexed
import ClassFile.Proofs.BlockGraph.FrameStep
import ClassFile.Proofs.BlockGraph.Placing
