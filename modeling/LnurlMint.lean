import LnurlMint.AddressFees
import LnurlMint.AddressPayments
import LnurlMint.Addresses
import LnurlMint.Attempts
import LnurlMint.Authority
import LnurlMint.Backends
import LnurlMint.Bearer
import LnurlMint.Books
import LnurlMint.Census
import LnurlMint.CertificateCodec
import LnurlMint.Certificates
import LnurlMint.Connecting
import LnurlMint.Disclosure
import LnurlMint.Fees
import LnurlMint.Gaps
import LnurlMint.InFlight
import LnurlMint.Opening
import LnurlMint.Ownership
import LnurlMint.PaymentScan
import LnurlMint.Payouts
import LnurlMint.Receipts
import LnurlMint.Recovery
import LnurlMint.RegisterMessages
import LnurlMint.Retries
import LnurlMint.SparkNotes
import LnurlMint.SparkReplies
import LnurlMint.Spending
import LnurlMint.Sunset
import LnurlMint.ZapRequests
import LnurlMint.Zaps
