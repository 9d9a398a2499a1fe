import Pnet.Engine.LayoutExplicit
import Pnet.Engine.LayoutVtable
import Pnet.Engine.VerifyScanSound
import Pnet.Image.TypeEquivalence
import Pnet.Support.BigNumModulus
import Pnet.Support.DecimalFormat
import Pnet.Support.InternSound
import Pnet.Support.LinkedList
import Pnet.Image.MetaIndexTables
import Pnet.Image.MetaIndexEncode
import Pnet.Codegen.RbTreeFree
import Pnet.Image.ItemSafe
import Pnet.Image.MethodCodeSound
import Pnet.Image.HeapsRun
import Pnet.Image.ClassLookup
import Pnet.Image.NamespaceHash
import Pnet.Support.InterlockedSListRun
import Pnet.Engine.CvmLabelsRun
import Pnet.Cscc.OverloadSound
import Pnet.Codegen.CastChain
import Pnet.Support.Digest
import Pnet.Support.BlockCiphers
import Pnet.Cscc.CLayoutAgrees
import Pnet.Cscc.CBitFieldSound
import Pnet.Support.WaitMutexSound
import Pnet.Image.WriterStream
import Pnet.Image.DebugRoundTrip
import Pnet.Image.RenumberSound
import Pnet.Image.CodeSection
import Pnet.Image.DebugLines
import Pnet.Image.DebugVars
import Pnet.Image.WinRes
import Pnet.Support.ThreadCountSound
import Pnet.Support.ThreadWordSound
import Pnet.Engine.ArrayClear
import Pnet.Ilasm.IlasmOutputSound
import Pnet.Cscc.CBitFieldAccessSound
import Pnet.Engine.CvmFusion
import Pnet.Cscc.BFProgramSound
import Pnet.Support.DesStandard
import Pnet.Engine.LeaveSound
import Pnet.Support.MulLong
import Pnet.Support.ThreadCleanup
import Pnet.Support.MemStack
import Pnet.Engine.StringReplace
import Pnet.Support.DecimalPlaces
import Pnet.Image.SignatureNodes
import Pnet.Image.SigTruncated
import Pnet.Engine.CryptoNum
